import Mathlib.Logic.Basic
import Mathlib.Algebra.Group.Nat.Defs

/-! The column types of the schema: identifiers, and the values that the `CHECK` constraints of the
migrations admit for the text columns.  An instant is a number of microseconds since the Unix epoch,
which is the resolution of `TIMESTAMPTZ`. -/

namespace Wikore

/-- A UUID column. -/
structure Uuid where
  bits : BitVec 128
deriving DecidableEq, Repr

instance (n : Nat) : OfNat Uuid n := ⟨⟨BitVec.ofNat 128 n⟩⟩

-- columns that may be NULL, and keys of two columns
instance : LawfulBEq (Option Uuid) := inferInstance

instance : LawfulBEq (Uuid × Uuid) := inferInstance

/-- What the server receives of a text parameter: a NUL ends it. -/
def textParam (s : String) : String := String.ofList (s.toList.takeWhile fun c => c ≠ '\x00')

def hexDigit (n : Nat) : Char := "0123456789abcdef".toList.getD n '0'

/-- The 32 hexadecimal digits of a UUID, the most significant first. -/
def Uuid.digits (u : Uuid) : List Char :=
  (List.range 32).map fun i => hexDigit (u.bits.toNat / 16 ^ (31 - i) % 16)

/-- `u::text`: the canonical lower-case form, 8-4-4-4-12. -/
def Uuid.text (u : Uuid) : String :=
  let digits := Uuid.digits u
  String.ofList (digits.take 8 ++ '-' :: (digits.drop 8).take 4 ++ '-' :: (digits.drop 12).take 4 ++
    '-' :: (digits.drop 16).take 4 ++ '-' :: digits.drop 20)

theorem Uuid.text_ne_empty (u : Uuid) : Uuid.text u ≠ "" := by
  simp [Uuid.text]

theorem hexDigit_inj {a b : Nat} (ha : a < 16) (hb : b < 16) (h : hexDigit a = hexDigit b) :
    a = b := by
  have hall : ∀ a < 16, ∀ b < 16, hexDigit a = hexDigit b → a = b := by decide
  exact hall a ha b hb h

/-- A number below `16 ^ n` is determined by its `n` hexadecimal digits. -/
theorem mod_eq_of_digits {a b n : Nat} (h : ∀ i < n, a / 16 ^ i % 16 = b / 16 ^ i % 16) :
    a % 16 ^ n = b % 16 ^ n := by
  induction n with
  | zero => simp [Nat.mod_one]
  | succ n ih =>
    rw [Nat.mod_pow_succ, Nat.mod_pow_succ, ih fun i hi => h i (by omega), h n (by omega)]

theorem Uuid.digits_injective {u v : Uuid} (h : Uuid.digits u = Uuid.digits v) : u = v := by
  have hdigit : ∀ i < 32, u.bits.toNat / 16 ^ i % 16 = v.bits.toNat / 16 ^ i % 16 := by
    intro i hi
    have hget := congrArg (fun l => l[31 - i]?) h
    have hlt : 31 - i < 32 := by omega
    simp only [Uuid.digits, List.getElem?_map, List.getElem?_range hlt, Option.map_some,
      Option.some.injEq] at hget
    rw [show 31 - (31 - i) = i by omega] at hget
    exact hexDigit_inj (Nat.mod_lt _ (by omega)) (Nat.mod_lt _ (by omega)) hget
  have hu := u.bits.isLt
  have hv := v.bits.isLt
  have hmod := mod_eq_of_digits hdigit
  rw [show (16 : Nat) ^ 32 = 2 ^ 128 by decide, Nat.mod_eq_of_lt hu, Nat.mod_eq_of_lt hv] at hmod
  cases u
  cases v
  exact congrArg Uuid.mk (BitVec.eq_of_toNat_eq hmod)

theorem Uuid.text_injective {u v : Uuid} (h : Uuid.text u = Uuid.text v) : u = v := by
  apply Uuid.digits_injective
  have hl := congrArg String.toList h
  have hlu : (Uuid.digits u).length = 32 := by simp [Uuid.digits]
  have hlv : (Uuid.digits v).length = 32 := by simp [Uuid.digits]
  simp only [Uuid.text, String.toList_ofList] at hl
  generalize Uuid.digits u = a at hl hlu
  generalize Uuid.digits v = b at hl hlv
  have hlen : ∀ n m, ((a.drop n).take m).length = ((b.drop n).take m).length := by simp [hlu, hlv]
  have hlen' : (a.drop 20).length = (b.drop 20).length := by simp [hlu, hlv]
  obtain ⟨hl, h4⟩ := List.append_inj' hl (by simpa using hlen')
  obtain ⟨hl, h3⟩ := List.append_inj' hl (by simpa using hlen 16 4)
  obtain ⟨hl, h2⟩ := List.append_inj' hl (by simpa using hlen 12 4)
  obtain ⟨h0, h1⟩ := List.append_inj' hl (by simpa using hlen 8 4)
  simp only [List.cons.injEq, true_and] at h1 h2 h3 h4
  have hjoin : ∀ l : List Char, l = l.take 8 ++ ((l.drop 8).take 4 ++ ((l.drop 12).take 4 ++
      ((l.drop 16).take 4 ++ l.drop 20))) := by
    intro l
    have hstep : ∀ n, (l.drop n).take 4 ++ l.drop (n + 4) = l.drop n := by
      intro n
      rw [← List.drop_drop, List.take_append_drop]
    rw [hstep 16, hstep 12, hstep 8, List.take_append_drop]
  rw [hjoin a, hjoin b, h0, h1, h2, h3, h4]

/-- `now` is before the end of a validity interval that may be open:
`expires_at IS NULL OR expires_at > now()`. -/
def unexpired (now : Nat) : Option Nat → Bool
  | none => true
  | some t => decide (now < t)

/-- `org_units.type`. -/
inductive OrgUnitType
  | root | subsidiary | division | department | team | project
deriving DecidableEq, Repr

/-- `memberships.applies_to`, `resource_grants.resource_applies_to` and `principal_applies_to`. -/
inductive AppliesTo
  | selfOnly | selfAndDescendants
deriving DecidableEq, Repr

/-- `resource_grants.resource_type`. -/
inductive ResourceType
  | orgUnit | document | wikiPage
deriving DecidableEq, Repr

/-- `resource_grants.principal_type`, which admits one value. -/
inductive PrincipalType
  | orgUnit
deriving DecidableEq, Repr

/-- `resource_grants.permission`. -/
inductive Permission
  | read | write | admin
deriving DecidableEq, Repr

/-- `document_versions.lifecycle_status`. -/
inductive LifecycleStatus
  | draft | active | deprecated | archived
deriving DecidableEq, Repr

/-- `document_versions.sensitivity_label`; `pub` is the label `public`. -/
inductive SensitivityLabel
  | pub | internal | confidential | restricted
deriving DecidableEq, Repr

/-- `knowledge_edges.review_state`. -/
inductive ReviewState
  | accepted | proposed | rejected | superseded
deriving DecidableEq, Repr

/-- `knowledge_edges.edge_type`. -/
inductive EdgeType
  | implements | dependsOn | exceptionTo | contradicts | sameRequirementAs | derivedFrom | cites
  | affects | requiresApprovalFrom
deriving DecidableEq, Repr

/-- `knowledge_edges.direction`. -/
inductive EdgeDirection
  | directed | symmetric
deriving DecidableEq, Repr

/-- `knowledge_edges.origin`. -/
inductive EdgeOrigin
  | parser | deterministicRule | administrator | llmProposal
deriving DecidableEq, Repr

/-- `knowledge_edge_endpoints.role`. -/
inductive EndpointRole
  | source | target | subject | object | a | b
deriving DecidableEq, Repr

def EdgeType.text : EdgeType → String
  | implements => "implements"
  | dependsOn => "depends_on"
  | exceptionTo => "exception_to"
  | contradicts => "contradicts"
  | sameRequirementAs => "same_requirement_as"
  | derivedFrom => "derived_from"
  | cites => "cites"
  | affects => "affects"
  | requiresApprovalFrom => "requires_approval_from"

def EdgeDirection.text : EdgeDirection → String
  | directed => "directed"
  | symmetric => "symmetric"

def EdgeOrigin.text : EdgeOrigin → String
  | parser => "parser"
  | deterministicRule => "deterministic_rule"
  | administrator => "administrator"
  | llmProposal => "llm_proposal"

def EndpointRole.text : EndpointRole → String
  | source => "source"
  | target => "target"
  | subject => "subject"
  | object => "object"
  | a => "a"
  | b => "b"

def ReviewState.text : ReviewState → String
  | accepted => "accepted"
  | proposed => "proposed"
  | rejected => "rejected"
  | superseded => "superseded"

/-- `document_versions.ingest_status`. -/
inductive IngestStatus
  | pending | processing | done | error
deriving DecidableEq, Repr

/-- `change_kind` of the history tables. -/
inductive ChangeKind
  | insert | update | delete
deriving DecidableEq, Repr

/-- `memberships.role`. -/
inductive Role
  | viewer | editor | admin
deriving DecidableEq, Repr

end Wikore
