import Wikore.Ingest.Chunker
import Wikore.Lib.Carried
import Wikore.Rag.ContextBuilder

/-! What the parsers share: the document that a parser returns, and the section tree that it builds
along a path of open sections.  What a text says is carried to the tree when the text is put at the
end of the path. -/

namespace Wikore.Parser

open Chunker (ParsedSection preorder preorders)
open ContextBuilder (Bytes Error utf8)
open Utf8

structure ParsedDocument where
  filename : Bytes
  mimeType : Bytes
  sections : List ParsedSection
  fullText : Bytes

mutual

/-- `accum_text`. -/
def accumText : ParsedSection → Bytes → Bytes
  | ⟨_, _, text, children, _⟩, out =>
    accumTexts children ((if out ≠ [] ∧ text ≠ [] then out ++ utf8 "\n" else out) ++ text)

def accumTexts : List ParsedSection → Bytes → Bytes
  | [], out => out
  | sec :: rest, out => accumTexts rest (accumText sec out)

end

/-! ### Sections under construction -/

/-- The sections so far and the depths of the open ones, the innermost first.  The source keeps
pointers to the open sections: each points at the last child of the one before it. -/
structure Outline where
  sections : List ParsedSection
  stack : List Nat

/-- A section with neither text nor children. -/
def heading (title : Bytes) (depth : Nat) : ParsedSection := ⟨title, depth, [], [], none⟩

def onLast {α : Type} (f : α → α) : List α → List α
  | [] => []
  | [a] => [f a]
  | a :: b :: l => a :: onLast f (b :: l)

/-- The section that is `n` levels down the last branch of `sec` is changed. -/
def inside (f : ParsedSection → ParsedSection) : Nat → ParsedSection → ParsedSection
  | 0, sec => f sec
  | n + 1, sec => { sec with children := onLast (inside f n) sec.children }

namespace Outline

/-- The innermost open section is changed. -/
def onTop (f : ParsedSection → ParsedSection) (o : Outline) : Outline :=
  { o with sections := onLast (inside f (o.stack.length - 1)) o.sections }

def pop (depth : Nat) (o : Outline) : Outline :=
  { o with stack := o.stack.dropWhile fun d => decide (depth ≤ d) }

/-- A section is added under the innermost open one, or at the top level, and opened. -/
def push (sec : ParsedSection) (o : Outline) : Outline :=
  match o.stack with
  | [] => ⟨o.sections ++ [sec], [sec.depth]⟩
  | d :: stack =>
    ⟨(o.onTop fun parent => { parent with children := parent.children ++ [sec] }).sections,
      sec.depth :: d :: stack⟩

/-- The sections that are at least as deep are closed, and the section is opened. -/
def openSection (sec : ParsedSection) (o : Outline) : Outline := (o.pop sec.depth).push sec

/-- Text before the first heading goes to a section of depth 0 without a heading. -/
def implicitSection (o : Outline) : Outline :=
  if o.stack = [] then o.push (heading [] 0) else o

/-- The text is added to the innermost open section, after `sep` unless it is the first. -/
def appendText (sep text : Bytes) (o : Outline) : Outline :=
  o.implicitSection.onTop fun sec =>
    { sec with text := (if sec.text = [] then [] else sec.text ++ sep) ++ text }

end Outline

/-! ### What a tree says -/

/-- The headings and the texts of the sections, depth first. -/
def textsOf (ss : List ParsedSection) : List Bytes :=
  (preorders ss).flatMap fun sec => [sec.heading, sec.text]

theorem preorders_append (ss us : List ParsedSection) :
    preorders (ss ++ us) = preorders ss ++ preorders us := by
  induction ss with
  | nil => rfl
  | cons sec ss ih =>
    show preorder sec ++ preorders (ss ++ us) = preorder sec ++ preorders ss ++ preorders us
    rw [ih, List.append_assoc]

theorem textsOf_append (ss us : List ParsedSection) :
    textsOf (ss ++ us) = textsOf ss ++ textsOf us := by
  rw [textsOf, preorders_append, List.flatMap_append]
  rfl

theorem textsOf_singleton (sec : ParsedSection) :
    textsOf [sec] = sec.heading :: sec.text :: textsOf sec.children := by
  obtain ⟨title, depth, text, children, dbId⟩ := sec
  simp [textsOf, preorders, preorder]

/-- The last branch goes down at least `n` levels. -/
def Reaches : Nat → List ParsedSection → Prop
  | 0, _ => True
  | n + 1, ss => ∃ init sec, ss = init ++ [sec] ∧ Reaches n sec.children

theorem Reaches.mono {n m : Nat} {ss : List ParsedSection} (h : Reaches m ss) (hn : n ≤ m) :
    Reaches n ss := by
  induction n generalizing m ss with
  | zero => trivial
  | succ n ih =>
    cases m with
    | zero => omega
    | succ m =>
      obtain ⟨init, sec, rfl, hsec⟩ := h
      exact ⟨init, sec, rfl, ih hsec (by omega)⟩

theorem onLast_concat {α : Type} (f : α → α) (l : List α) (a : α) :
    onLast f (l ++ [a]) = l ++ [f a] := by
  induction l with
  | nil => rfl
  | cons b l ih =>
    cases l with
    | nil => rfl
    | cons c l => exact congrArg (b :: ·) ih

/-- A change of the section `n` levels down changes the texts of that section in their place. -/
theorem exists_inside {n : Nat} {ss : List ParsedSection} (h : Reaches (n + 1) ss) :
    ∃ before sec after, textsOf ss = before ++ textsOf [sec] ++ after ∧
      ∀ f, textsOf (onLast (inside f n) ss) = before ++ textsOf [f sec] ++ after := by
  induction n generalizing ss with
  | zero =>
    obtain ⟨init, sec, rfl, -⟩ := h
    refine ⟨textsOf init, sec, [], ?_, fun f => ?_⟩
    · rw [textsOf_append, List.append_nil]
    · rw [onLast_concat, textsOf_append, List.append_nil]
      rfl
  | succ n ih =>
    obtain ⟨init, sec, rfl, hsec⟩ := h
    obtain ⟨before, sec', after, hss, hf⟩ := ih hsec
    refine ⟨textsOf init ++ sec.heading :: sec.text :: before, sec', after, ?_, fun f => ?_⟩
    · rw [textsOf_append, textsOf_singleton, hss]
      simp
    · rw [onLast_concat, textsOf_append, textsOf_singleton]
      show _ ++ sec.heading :: sec.text :: textsOf (onLast (inside f n) sec.children) = _
      rw [hf]
      simp

theorem reaches_inside_push {n : Nat} {ss : List ParsedSection} (sec : ParsedSection)
    (h : Reaches (n + 1) ss) :
    Reaches (n + 2) (onLast (inside (fun parent =>
      { parent with children := parent.children ++ [sec] }) n) ss) := by
  induction n generalizing ss with
  | zero =>
    obtain ⟨init, parent, rfl, -⟩ := h
    rw [onLast_concat]
    exact ⟨init, _, rfl, parent.children, sec, rfl, trivial⟩
  | succ n ih =>
    obtain ⟨init, parent, rfl, hparent⟩ := h
    rw [onLast_concat]
    exact ⟨init, _, rfl, ih hparent⟩

section Says

variable {k : WideClass} {o : Outline} {sec : ParsedSection} {P Q : Prop}

/-- The path of open sections leads somewhere, and the texts of the sections are well formed and
have a character of the class exactly when `P`. -/
structure Outline.Says (k : WideClass) (o : Outline) (P : Prop) : Prop where
  path : Reaches o.stack.length o.sections
  texts : CarriesAll k (textsOf o.sections) P

theorem Outline.says_nil : Outline.Says k ⟨[], []⟩ False := ⟨trivial, carriesAll_nil⟩

theorem Outline.Says.iff (h : o.Says k P) (hpq : P ↔ Q) : o.Says k Q :=
  ⟨h.path, h.texts.iff hpq⟩

theorem Outline.Says.pop (h : o.Says k P) (depth : Nat) : (o.pop depth).Says k P :=
  ⟨h.path.mono (List.dropWhile_sublist _).length_le, h.texts⟩

theorem Outline.Says.push (h : o.Says k P) (hsec : CarriesAll k (textsOf [sec]) Q) :
    (o.push sec).Says k (P ∨ Q) := by
  obtain ⟨sections, stack⟩ := o
  cases stack with
  | nil =>
    refine ⟨⟨sections, sec, rfl, trivial⟩, ?_⟩
    show CarriesAll k (textsOf (sections ++ [sec])) _
    rw [textsOf_append]
    exact h.texts.append hsec
  | cons d stack =>
    obtain ⟨before, parent, after, hss, hf⟩ := exists_inside h.path
    refine ⟨reaches_inside_push sec h.path, ?_⟩
    have htexts := h.texts
    rw [hss] at htexts
    refine (htexts.append hsec).perm ?_
    show List.Perm _ (textsOf (onLast (inside _ stack.length) sections))
    have hnew : textsOf [{ parent with children := parent.children ++ [sec] }] =
        parent.heading :: parent.text :: (textsOf parent.children ++ textsOf [sec]) := by
      rw [textsOf_singleton]
      exact congrArg (parent.heading :: parent.text :: ·) (textsOf_append _ _)
    rw [hf, hnew, textsOf_singleton parent]
    simp only [List.append_assoc, List.cons_append]
    refine List.Perm.append_left before (.cons _ (.cons _ (.append_left _ ?_)))
    exact List.perm_append_comm

theorem Outline.Says.openSection (h : o.Says k P) (hsec : CarriesAll k (textsOf [sec]) Q) :
    (o.openSection sec).Says k (P ∨ Q) := (h.pop sec.depth).push hsec

end Says

end Wikore.Parser
