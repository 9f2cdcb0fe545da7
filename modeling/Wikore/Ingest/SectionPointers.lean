import Wikore.Ingest.SectionTree

/-! The section builders with their pointers.  A pointer is the place of a section, and it dangles
once the vector that holds the section has been moved.  No builder ever follows a pointer that
dangles, and what it builds is what the builder without pointers builds. -/

namespace Wikore.Parser

open Chunker (ParsedSection)
open ContextBuilder (Bytes utf8)

/-! ### Places -/

/-- The section at a place: its index, under the section at the index before it. -/
def sectionAt : List Nat → List ParsedSection → Option ParsedSection
  | [], _ => none
  | [i], ss => ss[i]?
  | i :: place, ss => (ss[i]?).bind fun sec => sectionAt place sec.children

def updateAt (f : ParsedSection → ParsedSection) : List Nat → List ParsedSection →
    List ParsedSection
  | [], ss => ss
  | [i], ss => ss.modify i f
  | i :: place, ss =>
    ss.modify i fun sec => { sec with children := updateAt f place sec.children }

/-- An entry of the stack: the depth, and a pointer to the section. -/
structure Frame where
  depth : Nat
  place : List Nat
  live : Bool

/-- The sections and the stack, the innermost section first. -/
structure Memory where
  sections : List ParsedSection
  stack : List Frame

namespace Memory

/-- The section that a pointer denotes; `none` where it dangles. -/
def deref (m : Memory) (fr : Frame) : Option ParsedSection :=
  if fr.live then sectionAt fr.place m.sections else none

/-- The pointers after a `push_back` to the vector whose elements are the places under `owner`.
Where it moves the elements, the pointers to them dangle.  A section that is moved takes the buffer
of its children along, so that pointers into that buffer stay. -/
def grow (moves : Bool) (owner : List Nat) (stack : List Frame) : List Frame :=
  stack.map fun fr => if moves && fr.place.dropLast == owner then { fr with live := false } else fr

def pushTop (moves : Bool) (sec : ParsedSection) (m : Memory) : Memory where
  sections := m.sections ++ [sec]
  stack := ⟨sec.depth, [m.sections.length], true⟩ :: grow moves [] m.stack

/-- The section is added under the innermost open one, or at the top level. -/
def push (moves : Bool) (sec : ParsedSection) (m : Memory) : Option Memory :=
  match m.stack with
  | [] => some (m.pushTop moves sec)
  | fr :: rest => (m.deref fr).map fun parent =>
    { sections := updateAt (fun parent => { parent with children := parent.children ++ [sec] })
        fr.place m.sections
      stack := ⟨sec.depth, fr.place ++ [parent.children.length], true⟩ ::
        grow moves fr.place (fr :: rest) }

def pop (depth : Nat) (m : Memory) : Memory :=
  { m with stack := m.stack.dropWhile fun fr => decide (depth ≤ fr.depth) }

def openSection (moves : Bool) (sec : ParsedSection) (m : Memory) : Option Memory :=
  (m.pop sec.depth).push moves sec

def implicitSection (moves : Bool) (m : Memory) : Memory :=
  if m.stack.isEmpty then m.pushTop moves (heading [] 0) else m

/-- The innermost open section is changed through its pointer. -/
def onTop (f : ParsedSection → ParsedSection) (m : Memory) : Option Memory :=
  match m.stack with
  | [] => some m
  | fr :: _ => (m.deref fr).map fun _ => { m with sections := updateAt f fr.place m.sections }

end Memory

/-! ### Places on the last branch -/

/-- The place of the section that is `n` levels down the last branch. -/
def branch : Nat → List ParsedSection → List Nat
  | 0, ss => [ss.length - 1]
  | n + 1, ss => (ss.length - 1) :: match ss.getLast? with
    | none => []
    | some sec => branch n sec.children

theorem branch_ne_nil (n : Nat) (ss : List ParsedSection) : branch n ss ≠ [] := by
  cases n <;> simp [branch]

theorem branch_concat_zero (init : List ParsedSection) (sec : ParsedSection) :
    branch 0 (init ++ [sec]) = [init.length] := by
  simp [branch]

theorem branch_concat_succ (n : Nat) (init : List ParsedSection) (sec : ParsedSection) :
    branch (n + 1) (init ++ [sec]) = init.length :: branch n sec.children := by
  simp [branch]

theorem sectionAt_cons (i : Nat) {place : List Nat} (h : place ≠ []) (ss : List ParsedSection) :
    sectionAt (i :: place) ss = (ss[i]?).bind fun sec => sectionAt place sec.children := by
  cases place with
  | nil => exact absurd rfl h
  | cons j place => rfl

theorem updateAt_cons (f : ParsedSection → ParsedSection) (i : Nat) {place : List Nat}
    (h : place ≠ []) (ss : List ParsedSection) : updateAt f (i :: place) ss =
      ss.modify i fun sec => { sec with children := updateAt f place sec.children } := by
  cases place with
  | nil => exact absurd rfl h
  | cons j place => rfl

theorem modify_last {α : Type} (f : α → α) (init : List α) (a : α) :
    (init ++ [a]).modify init.length f = init ++ [f a] := by
  induction init with
  | nil => rfl
  | cons b init ih => exact congrArg (b :: ·) ih

/-- The sections on the last branch have the depths, the outermost first. -/
def OpenDepths : List ParsedSection → List Nat → Prop
  | _, [] => True
  | ss, d :: ds => ∃ init sec, ss = init ++ [sec] ∧ sec.depth = d ∧ OpenDepths sec.children ds

/-- The section at the end of a path of open sections, found and changed at its place. -/
theorem sectionAt_branch {ds : List Nat} {d : Nat} {ss : List ParsedSection}
    (h : OpenDepths ss (ds ++ [d])) :
    (∃ sec, sectionAt (branch ds.length ss) ss = some sec ∧ sec.depth = d) ∧
      ∀ f, updateAt f (branch ds.length ss) ss = onLast (inside f ds.length) ss := by
  induction ds generalizing ss with
  | nil =>
    obtain ⟨init, sec, rfl, hd, -⟩ := h
    refine ⟨⟨sec, ?_, hd⟩, fun f => ?_⟩
    · rw [List.length_nil, branch_concat_zero]
      simp [sectionAt]
    · rw [List.length_nil, branch_concat_zero, onLast_concat, updateAt, modify_last]
      rfl
  | cons e ds ih =>
    obtain ⟨init, sec, rfl, -, hsec⟩ := h
    obtain ⟨⟨top, htop, hd⟩, hf⟩ := ih hsec
    refine ⟨⟨top, ?_, hd⟩, fun f => ?_⟩
    · rw [List.length_cons, branch_concat_succ, sectionAt_cons _ (branch_ne_nil _ _)]
      simpa using htop
    · rw [List.length_cons, branch_concat_succ, updateAt_cons _ _ (branch_ne_nil _ _), modify_last,
        hf, onLast_concat]
      rfl

/-! ### The builder without pointers -/

/-- Every pointer of the stack is to the section on the last branch below those of the entries
under it. -/
def Placed (ss : List ParsedSection) : List Frame → Prop
  | [] => True
  | fr :: rest => fr.live = true ∧ fr.place = branch rest.length ss ∧ Placed ss rest

/-- The memory holds the outline, and no pointer of the stack dangles. -/
structure Memory.Holds (m : Memory) (o : Outline) : Prop where
  sections : m.sections = o.sections
  depths : m.stack.map Frame.depth = o.stack
  placed : Placed o.sections m.stack
  opened : OpenDepths o.sections o.stack.reverse

variable {m : Memory} {o : Outline}

theorem Memory.Holds.length_stack (h : m.Holds o) : m.stack.length = o.stack.length := by
  rw [← h.depths, List.length_map]

/-- The pointer at the top of the stack denotes the innermost open section. -/
theorem Memory.Holds.deref_top (h : m.Holds o) {fr : Frame} {rest : List Frame}
    (hstack : m.stack = fr :: rest) :
    (∃ sec, m.deref fr = some sec ∧ sec.depth = fr.depth) ∧
      ∀ f, updateAt f fr.place m.sections = onLast (inside f (o.stack.length - 1)) o.sections := by
  have hplaced := h.placed
  have hdepths := h.depths
  have hopened := h.opened
  rw [hstack] at hplaced hdepths
  obtain ⟨hlive, hplace, -⟩ := hplaced
  rw [List.map_cons] at hdepths
  rw [← hdepths, List.reverse_cons] at hopened
  obtain ⟨⟨sec, hsec, hd⟩, hf⟩ := sectionAt_branch hopened
  rw [List.length_reverse, List.length_map, ← hplace] at hsec hf
  constructor
  · refine ⟨sec, ?_, hd⟩
    rw [Memory.deref, if_pos hlive, h.sections, hsec]
  · intro f
    rw [h.sections, hf, ← hdepths, List.length_cons, List.length_map, Nat.add_sub_cancel]

theorem OpenDepths.init {ds es : List Nat} {ss : List ParsedSection}
    (h : OpenDepths ss (ds ++ es)) : OpenDepths ss ds := by
  induction ds generalizing ss with
  | nil => trivial
  | cons d ds ih =>
    obtain ⟨init, sec, rfl, hd, hsec⟩ := h
    exact ⟨init, sec, rfl, hd, ih hsec⟩

theorem Memory.Holds.pop (h : m.Holds o) (depth : Nat) : (m.pop depth).Holds (o.pop depth) := by
  refine ⟨h.sections, ?_, ?_, ?_⟩
  · show (m.stack.dropWhile _).map _ = o.stack.dropWhile _
    rw [← h.depths, List.dropWhile_map]
    rfl
  · have hplaced := h.placed
    show Placed o.sections (m.stack.dropWhile _)
    generalize m.stack = stack at hplaced
    induction stack with
    | nil => trivial
    | cons fr rest ih =>
      rw [List.dropWhile_cons]
      split
      · exact ih hplaced.2.2
      · exact hplaced
  · have hsplit := List.takeWhile_append_dropWhile (p := fun d => decide (depth ≤ d)) (l := o.stack)
    have hopened := h.opened
    rw [← hsplit, List.reverse_append] at hopened
    exact OpenDepths.init hopened

theorem branch_length (n : Nat) {ss : List ParsedSection} {ds : List Nat} (h : OpenDepths ss ds)
    (hn : n < ds.length) : (branch n ss).length = n + 1 := by
  induction n generalizing ss ds with
  | zero => rfl
  | succ n ih =>
    cases ds with
    | nil => simp at hn
    | cons d ds =>
      obtain ⟨init, sec, rfl, -, hsec⟩ := h
      rw [branch_concat_succ, List.length_cons, ih hsec (by simpa using hn)]

/-- A change of the innermost open section leaves the places of the open sections. -/
theorem branch_inside {f : ParsedSection → ParsedSection} (hf : ∀ sec, (f sec).depth = sec.depth)
    {ds : List Nat} {d : Nat} {ss : List ParsedSection} (h : OpenDepths ss (ds ++ [d])) :
    (∀ n ≤ ds.length, branch n (onLast (inside f ds.length) ss) = branch n ss) ∧
      OpenDepths (onLast (inside f ds.length) ss) (ds ++ [d]) := by
  induction ds generalizing ss with
  | nil =>
    obtain ⟨init, sec, rfl, hd, -⟩ := h
    rw [onLast_concat]
    refine ⟨fun n hn => ?_, init, f sec, rfl, (hf sec).trans hd, trivial⟩
    obtain rfl := Nat.le_zero.mp hn
    rw [branch_concat_zero, branch_concat_zero]
  | cons e ds ih =>
    obtain ⟨init, sec, rfl, he, hsec⟩ := h
    obtain ⟨hbranch, hopen⟩ := ih hsec
    rw [List.length_cons, onLast_concat]
    refine ⟨fun n hn => ?_, init, _, rfl, he, hopen⟩
    cases n with
    | zero => rw [branch_concat_zero, branch_concat_zero]
    | succ n =>
      rw [branch_concat_succ, branch_concat_succ]
      exact congrArg (init.length :: ·) (hbranch n (Nat.le_of_succ_le_succ hn))

def addChild (sec parent : ParsedSection) : ParsedSection :=
  { parent with children := parent.children ++ [sec] }

/-- A new child of the innermost open section stands at the end of the last branch. -/
theorem branch_addChild (sec : ParsedSection) {ds : List Nat} {d : Nat} {ss : List ParsedSection}
    (h : OpenDepths ss (ds ++ [d])) :
    (∃ parent, sectionAt (branch ds.length ss) ss = some parent ∧
      branch (ds.length + 1) (onLast (inside (addChild sec) ds.length) ss) =
        branch ds.length ss ++ [parent.children.length]) ∧
      OpenDepths (onLast (inside (addChild sec) ds.length) ss) (ds ++ [d] ++ [sec.depth]) := by
  induction ds generalizing ss with
  | nil =>
    obtain ⟨init, parent, rfl, hd, -⟩ := h
    rw [List.length_nil, onLast_concat]
    refine ⟨⟨parent, ?_, ?_⟩, init, addChild sec parent, rfl, hd, parent.children, sec, rfl, rfl,
      trivial⟩
    · rw [branch_concat_zero]
      simp [sectionAt]
    · rw [branch_concat_succ, branch_concat_zero]
      show init.length :: branch 0 (parent.children ++ [sec]) = _
      rw [branch_concat_zero]
      rfl
  | cons e ds ih =>
    obtain ⟨init, top, rfl, he, htop⟩ := h
    obtain ⟨⟨parent, hparent, hbranch⟩, hopen⟩ := ih htop
    rw [List.length_cons, onLast_concat]
    refine ⟨⟨parent, ?_, ?_⟩, init, _, rfl, he, hopen⟩
    · rw [branch_concat_succ, sectionAt_cons _ (branch_ne_nil _ _)]
      simpa using hparent
    · rw [branch_concat_succ, branch_concat_succ]
      exact congrArg (init.length :: ·) hbranch

theorem Placed.of_branch {ss ss' : List ParsedSection} {stack : List Frame}
    (h : Placed ss stack) (hbranch : ∀ n < stack.length, branch n ss' = branch n ss) :
    Placed ss' stack := by
  induction stack with
  | nil => trivial
  | cons fr rest ih =>
    refine ⟨h.1, ?_, ih h.2.2 fun n hn => hbranch n (Nat.lt_succ_of_lt hn)⟩
    rw [h.2.1, hbranch _ (Nat.lt_succ_self _)]

/-- The open sections are not elements of the vector that grows. -/
theorem placed_grow (moves : Bool) {owner : List Nat} {ss ss' : List ParsedSection}
    {stack : List Frame} {ds : List Nat} (hplaced : Placed ss stack) (hopen : OpenDepths ss ds)
    (hlen : stack.length ≤ ds.length) (howner : stack.length ≤ owner.length)
    (hbranch : ∀ n < stack.length, branch n ss' = branch n ss) :
    Placed ss' (Memory.grow moves owner stack) := by
  induction stack with
  | nil => trivial
  | cons fr rest ih =>
    obtain ⟨hlive, hplace, hrest⟩ := hplaced
    rw [List.length_cons] at hlen howner hbranch
    have hne : fr.place.dropLast ≠ owner := by
      intro he
      have := congrArg List.length he
      rw [List.length_dropLast, hplace, branch_length _ hopen (by omega)] at this
      omega
    have hsame : (if moves && fr.place.dropLast == owner then { fr with live := false } else fr) =
        fr := by
      rw [if_neg (by simp [hne])]
    show Placed ss' ((if moves && fr.place.dropLast == owner then { fr with live := false } else fr)
      :: Memory.grow moves owner rest)
    rw [hsame]
    refine ⟨hlive, ?_, ih hrest (by omega) (by omega) fun n hn => hbranch n (by omega)⟩
    rw [hplace, Memory.grow, List.length_map, hbranch _ (by omega)]

theorem map_depth_grow (moves : Bool) (owner : List Nat) (stack : List Frame) :
    (Memory.grow moves owner stack).map Frame.depth = stack.map Frame.depth := by
  rw [Memory.grow, List.map_map]
  refine List.map_congr_left fun fr _ => ?_
  show (if _ then { fr with live := false } else fr).depth = fr.depth
  split <;> rfl

theorem Memory.Holds.pushTop (h : m.Holds o) (hstack : m.stack = []) (moves : Bool)
    (sec : ParsedSection) : (m.pushTop moves sec).Holds ⟨o.sections ++ [sec], [sec.depth]⟩ where
  sections := by
    show m.sections ++ [sec] = o.sections ++ [sec]
    rw [h.sections]
  depths := by
    rw [Memory.pushTop, hstack]
    rfl
  placed := by
    rw [Memory.pushTop, hstack]
    refine ⟨rfl, ?_, trivial⟩
    show [m.sections.length] = branch 0 (o.sections ++ [sec])
    rw [branch_concat_zero, h.sections]
  opened := ⟨o.sections, sec, rfl, rfl, trivial⟩

/-- A section is added through a pointer that does not dangle, whether or not vectors move. -/
theorem Memory.Holds.push (h : m.Holds o) (moves : Bool) (sec : ParsedSection) :
    ∃ m', m.push moves sec = some m' ∧ m'.Holds (o.push sec) := by
  unfold Memory.push
  split
  next hstack =>
    have hnil : o.stack = [] := by
      rw [← h.depths, hstack]
      rfl
    refine ⟨_, rfl, ?_⟩
    rw [Outline.push, hnil]
    exact h.pushTop hstack moves sec
  next fr rest hstack =>
    obtain ⟨⟨parent, hparent, -⟩, hupdate⟩ := h.deref_top hstack
    have hcons : o.stack = fr.depth :: rest.map Frame.depth := by
      rw [← h.depths, hstack]
      rfl
    have hplaced := h.placed
    rw [hstack] at hplaced
    have hopened := h.opened
    rw [hcons, List.reverse_cons] at hopened
    have hlen : (rest.map Frame.depth).reverse.length = rest.length := by simp
    have hadd := branch_addChild sec hopened
    have hkeep := branch_inside (f := addChild sec) (fun _ => rfl) hopened
    rw [hlen] at hadd hkeep
    rw [hparent]
    refine ⟨_, rfl, ?_⟩
    rw [Outline.push, hcons]
    have hsections : (o.onTop fun parent => { parent with children := parent.children ++ [sec] })
        = { o with sections := onLast (inside (addChild sec) rest.length) o.sections } := by
      rw [Outline.onTop, hcons, List.length_cons, List.length_map, Nat.add_sub_cancel]
      rfl
    rw [hsections]
    obtain ⟨parent', hparent', hplace⟩ := hadd.1
    have hsame : parent' = parent := by
      rw [Memory.deref, if_pos hplaced.1, hplaced.2.1, h.sections, hparent'] at hparent
      exact Option.some.inj hparent
    rw [hsame] at hplace
    refine ⟨?_, ?_, ?_, ?_⟩
    · show updateAt _ fr.place m.sections = _
      rw [hupdate, hcons, List.length_cons, List.length_map, Nat.add_sub_cancel]
      rfl
    · rw [List.map_cons, map_depth_grow]
      rfl
    · refine ⟨rfl, ?_, ?_⟩
      · show fr.place ++ [parent.children.length] = _
        rw [Memory.grow, List.length_map, List.length_cons, hplace, hplaced.2.1]
      · have howner : fr.place.length = rest.length + 1 := by
          rw [hplaced.2.1, branch_length _ hopened (by simp)]
        refine placed_grow moves hplaced hopened (by simp) ?_ fun n hn => ?_
        · rw [howner, List.length_cons]
        · exact hkeep.1 n (Nat.le_of_lt_succ hn)
    · show OpenDepths _ (sec.depth :: fr.depth :: rest.map Frame.depth).reverse
      rw [List.reverse_cons, List.reverse_cons]
      exact hadd.2

theorem Memory.Holds.openSection (h : m.Holds o) (moves : Bool) (sec : ParsedSection) :
    ∃ m', m.openSection moves sec = some m' ∧ m'.Holds (o.openSection sec) :=
  (h.pop sec.depth).push moves sec

theorem Memory.Holds.implicitSection (h : m.Holds o) (moves : Bool) :
    (m.implicitSection moves).Holds o.implicitSection := by
  unfold Memory.implicitSection Outline.implicitSection
  split
  next hempty =>
    have hstack : m.stack = [] := List.isEmpty_iff.mp hempty
    have hnil : o.stack = [] := by
      rw [← h.depths, hstack]
      rfl
    rw [if_pos hnil, Outline.push, hnil]
    exact h.pushTop hstack moves _
  next hempty =>
    have hne : o.stack ≠ [] := by
      rw [← h.depths]
      simpa using hempty
    rwa [if_neg hne]

/-- The innermost section is changed through a pointer that does not dangle. -/
theorem Memory.Holds.onTop (h : m.Holds o) {f : ParsedSection → ParsedSection}
    (hf : ∀ sec, (f sec).depth = sec.depth) (hne : o.stack ≠ []) :
    ∃ m', m.onTop f = some m' ∧ m'.Holds (o.onTop f) := by
  cases hstack : m.stack with
  | nil =>
    refine absurd ?_ hne
    rw [← h.depths, hstack]
    rfl
  | cons fr rest =>
    obtain ⟨⟨sec, hsec, -⟩, hupdate⟩ := h.deref_top hstack
    have hcons : o.stack = fr.depth :: rest.map Frame.depth := by
      rw [← h.depths, hstack]
      rfl
    have hopened := h.opened
    rw [hcons, List.reverse_cons] at hopened
    have hkeep := branch_inside hf hopened
    have hlen : (rest.map Frame.depth).reverse.length = rest.length := by simp
    rw [hlen] at hkeep
    have hsections : o.onTop f = { o with sections := onLast (inside f rest.length) o.sections } := by
      rw [Outline.onTop, hcons, List.length_cons, List.length_map, Nat.add_sub_cancel]
    have hresult : m.onTop f = some { m with sections := updateAt f fr.place m.sections } := by
      unfold Memory.onTop
      split
      next hnil => rw [hnil] at hstack; cases hstack
      next fr' rest' hfr =>
        obtain ⟨rfl, rfl⟩ := List.cons.inj (hfr.symm.trans hstack)
        rw [hsec]
        rfl
    refine ⟨_, hresult, ?_⟩
    rw [hsections]
    refine ⟨?_, h.depths, ?_, ?_⟩
    · show updateAt f fr.place m.sections = _
      rw [hupdate, hcons, List.length_cons, List.length_map, Nat.add_sub_cancel]
    · refine h.placed.of_branch fun n hn => hkeep.1 n ?_
      rw [hstack] at hn
      exact Nat.le_of_lt_succ hn
    · show OpenDepths _ o.stack.reverse
      rw [hcons, List.reverse_cons]
      exact hkeep.2

end Wikore.Parser
