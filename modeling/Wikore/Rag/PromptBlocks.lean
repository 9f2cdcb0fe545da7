import Mathlib.Algebra.Group.Nat.Defs
import Mathlib.Data.List.Perm.Basic
import Wikore.Lib.Fallible

/-! The texts that `ContextBuilder` makes of a piece of evidence: `escape`, `format_chunk_block`,
`format_endpoint_line` and `format_relationship_block`.  The builder knows strings as bytes, so the
evidence that the gates hand on is taken here with byte strings for its fields. -/

namespace Wikore.ContextBuilder

/-- A `std::string`. -/
abbrev Bytes := List UInt8

instance : LawfulBEq Bytes := inferInstance

/-- A string literal of the source. -/
def utf8 (s : String) : Bytes := s.toByteArray.data.toList

/-- An `int` as `std::format` writes it; the labels are not negative. -/
def decimal (n : Nat) : Bytes := utf8 (toString n)

/-! ### Evidence -/

/-- What the builder reads of an `AllowedChunk`. -/
structure AllowedChunk where
  companyId : Bytes
  chunkId : Bytes
  text : Bytes
deriving DecidableEq, Repr

structure AllowedEndpoint where
  role : Bytes
  chunkId : Bytes
  text : Bytes
  sectionHeading : Option Bytes := none
deriving DecidableEq, Repr

/-- What the builder reads of an `AllowedRelationship`; `confidence` is the bits of a `double`. -/
structure AllowedRelationship where
  companyId : Bytes
  edgeId : Bytes
  edgeType : Bytes
  direction : Bytes
  origin : Bytes
  confidence : BitVec 64
  reviewState : Bytes
  endpoint0 : AllowedEndpoint
  endpoint1 : AllowedEndpoint
deriving DecidableEq, Repr

inductive AllowedEvidence
  | chunk (c : AllowedChunk)
  | relationship (r : AllowedRelationship)
deriving DecidableEq, Repr

def AllowedEvidence.companyId : AllowedEvidence → Bytes
  | .chunk c => c.companyId
  | .relationship r => r.companyId

/-! ### Texts -/

def escapeByte (c : UInt8) : Bytes :=
  if c = 38 then utf8 "&amp;"
  else if c = 60 then utf8 "&lt;"
  else if c = 62 then utf8 "&gt;"
  else if c = 34 then utf8 "&quot;"
  else [c]

def escape (text : Bytes) : Bytes := text.flatMap escapeByte

def formatChunkBlock (n : Nat) (text : Bytes) : Bytes :=
  utf8 "[SRC " ++ decimal n ++ utf8 "]\n<source>\n" ++ escape text ++ utf8 "\n</source>\n\n"

def formatEndpointLine (label : String) (srcN : Nat) (sectionHeading : Option Bytes) : Bytes :=
  match sectionHeading with
  | some (c :: heading) =>
    utf8 "Endpoint " ++ utf8 label ++ utf8 " [SRC " ++ decimal srcN ++ utf8 "], section \"" ++
      escape (c :: heading) ++ utf8 "\"\n"
  | _ => utf8 "Endpoint " ++ utf8 label ++ utf8 " [SRC " ++ decimal srcN ++ utf8 "]\n"

/-- The integer next to `n / d`, and of two the even one. -/
def roundHalfEven (n d : Nat) : Nat :=
  if 2 * (n % d) < d ∨ (2 * (n % d) = d ∧ n / d % 2 = 0) then n / d else n / d + 1

/-- The format `.2f` of a `double`: its exact value is `mantissa * 2 ^ (exponent - 1075)`, with the
exponent of the subnormal numbers taken as 1. -/
def formatConfidence (bits : BitVec 64) : Bytes :=
  let exponent := bits.toNat / 2 ^ 52 % 2 ^ 11
  let fraction := bits.toNat % 2 ^ 52
  let sign := if bits.msb then utf8 "-" else []
  if exponent = 2047 then sign ++ utf8 (if fraction = 0 then "inf" else "nan")
  else
    let mantissa := if exponent = 0 then fraction else 2 ^ 52 + fraction
    let hundredths := roundHalfEven (100 * mantissa * 2 ^ max exponent 1) (2 ^ 1075)
    sign ++ decimal (hundredths / 100) ++ utf8 "." ++ decimal (hundredths / 10 % 10) ++
      decimal (hundredths % 10)

def isLeftRole (role : Bytes) : Bool := role = utf8 "source" ∨ role = utf8 "subject"

/-- The lines of a relationship block, of which the left and the right side of the arrow are known:
each is an endpoint with its label. -/
def relationshipLines (relN : Nat) (r : AllowedRelationship) (left right : Nat × AllowedEndpoint) :
    Bytes :=
  utf8 "[REL " ++ decimal relN ++ utf8 ": " ++ escape r.edgeType ++ utf8 ", origin=" ++
    escape r.origin ++ utf8 ", review_state=" ++ escape r.reviewState ++ utf8 ", confidence=" ++
    formatConfidence r.confidence ++ utf8 "]\n" ++
    formatEndpointLine "A" left.1 left.2.sectionHeading ++
    formatEndpointLine "B" right.1 right.2.sectionHeading ++
    (if r.direction = utf8 "symmetric" then utf8 "Direction: symmetric\n"
    else
      utf8 "Direction: [SRC " ++ decimal left.1 ++ utf8 "] " ++ escape r.edgeType ++
        utf8 " [SRC " ++ decimal right.1 ++ utf8 "]\n") ++
    utf8 "\n"

/-- `src_a_wire` and `src_b_wire` are the labels of the ordinals 0 and 1.  The sides are exchanged
when only the ordinal 1 has a role of the left side. -/
def formatRelationshipBlock (relN : Nat) (r : AllowedRelationship) (srcA srcB : Nat) : Bytes :=
  let r0Left := isLeftRole r.endpoint0.role
  let r1Left := isLeftRole r.endpoint1.role
  let leftIsOrdinal0 := !(r1Left && !r0Left)
  let srcLeft := if leftIsOrdinal0 then srcA else srcB
  let srcRight := if leftIsOrdinal0 then srcB else srcA
  let epLeft := if leftIsOrdinal0 then r.endpoint0 else r.endpoint1
  let epRight := if leftIsOrdinal0 then r.endpoint1 else r.endpoint0
  relationshipLines relN r (srcLeft, epLeft) (srcRight, epRight)

/-- A block of the prompt. -/
inductive Block
  | source (n : Nat) (text : Bytes)
  | relationship (n : Nat) (r : AllowedRelationship) (srcA srcB : Nat)
deriving DecidableEq, Repr

def Block.render : Block → Bytes
  | .source n text => formatChunkBlock n text
  | .relationship n r srcA srcB => formatRelationshipBlock n r srcA srcB

def Block.sourceLabel : Block → Option Nat
  | .source n _ => some n
  | .relationship .. => none

def Block.relationshipLabel : Block → Option Nat
  | .source .. => none
  | .relationship n .. => some n

/-- Whichever side an endpoint stands on, its label and its heading go with it. -/
theorem formatRelationshipBlock_sides (relN : Nat) (r : AllowedRelationship) (srcA srcB : Nat) :
    ∃ left right, [left, right].Perm [(srcA, r.endpoint0), (srcB, r.endpoint1)] ∧
      formatRelationshipBlock relN r srcA srcB = relationshipLines relN r left right := by
  cases hleft : !(isLeftRole r.endpoint1.role && !isLeftRole r.endpoint0.role) with
  | true =>
    refine ⟨(srcA, r.endpoint0), (srcB, r.endpoint1), List.Perm.refl _, ?_⟩
    simp only [formatRelationshipBlock, hleft, if_true]
  | false =>
    refine ⟨(srcB, r.endpoint1), (srcA, r.endpoint0), List.Perm.swap _ _ _, ?_⟩
    simp only [formatRelationshipBlock, hleft, Bool.false_eq_true, if_false]

theorem Block.render_ne_nil (b : Block) : b.render ≠ [] := by
  have hfirst : ∀ (s : String) (rest : Bytes), utf8 s ≠ [] → utf8 s ++ rest ≠ [] := by
    intro s rest h
    simp [h]
  cases b with
  | source n text =>
    simp only [render, formatChunkBlock, List.append_assoc]
    exact hfirst _ _ (by decide)
  | relationship n r srcA srcB =>
    simp only [render, formatRelationshipBlock, relationshipLines, List.append_assoc]
    exact hfirst _ _ (by decide)

end Wikore.ContextBuilder
