import Wikore.Ingest.SectionPointers
import Wikore.Lib.NearestBelow

/-! The law of a section tree: in pre-order the sections come as they were opened, each under the
nearest one before it with a smaller depth, and a text goes to the section opened last. -/

namespace Wikore.Parser

open Chunker (ParsedSection preorder preorders)
open ContextBuilder (Bytes utf8)
open NearestBelow (lastBelow chain)

/-! ### The sections in the order in which they were opened -/

structure Entry where
  heading : Bytes
  depth : Nat
  text : Bytes
deriving DecidableEq

def Entry.setText (g : Bytes → Bytes) (e : Entry) : Entry := { e with text := g e.text }

def setText (g : Bytes → Bytes) (sec : ParsedSection) : ParsedSection :=
  { sec with text := g sec.text }

def entryOf (sec : ParsedSection) : Entry := ⟨sec.heading, sec.depth, sec.text⟩

mutual

/-- The sections in pre-order, each with the position of its parent. -/
def rowsOf (parent : Option Nat) (start : Nat) : ParsedSection → List (Option Nat × Entry)
  | ⟨title, depth, text, children, _⟩ =>
    (parent, ⟨title, depth, text⟩) :: rowsOfAll (some start) (start + 1) children

def rowsOfAll (parent : Option Nat) (start : Nat) :
    List ParsedSection → List (Option Nat × Entry)
  | [] => []
  | sec :: rest =>
    rowsOf parent start sec ++ rowsOfAll parent (start + (preorder sec).length) rest

end

/-- What the rows have to be: each section is under the nearest one before it that is less deep.
The positions count from `start`. -/
def lawfulRows (start : Nat) (es : List Entry) : List (Option Nat × Entry) :=
  es.zipIdx.map fun p =>
    ((lastBelow p.1.depth ((es.take p.2).map Entry.depth)).map (start + ·), p.1)

theorem rowsOf_eq (parent : Option Nat) (start : Nat) (sec : ParsedSection) :
    rowsOf parent start sec =
      (parent, entryOf sec) :: rowsOfAll (some start) (start + 1) sec.children := by
  obtain ⟨title, depth, text, children, dbId⟩ := sec
  rfl

mutual

theorem map_rowsOf (parent : Option Nat) (start : Nat) (sec : ParsedSection) :
    (rowsOf parent start sec).map Prod.snd = (preorder sec).map entryOf := by
  obtain ⟨title, depth, text, children, dbId⟩ := sec
  exact congrArg (_ :: ·) (map_rowsOfAll (some start) (start + 1) children)

theorem map_rowsOfAll (parent : Option Nat) (start : Nat) (ss : List ParsedSection) :
    (rowsOfAll parent start ss).map Prod.snd = (preorders ss).map entryOf := by
  match ss with
  | [] => rfl
  | sec :: rest =>
    rw [rowsOfAll, preorders, List.map_append, List.map_append, map_rowsOf parent start sec,
      map_rowsOfAll parent _ rest]

end

theorem length_rowsOfAll (parent : Option Nat) (start : Nat) (ss : List ParsedSection) :
    (rowsOfAll parent start ss).length = (preorders ss).length := by
  have h := congrArg List.length (map_rowsOfAll parent start ss)
  rwa [List.length_map, List.length_map] at h

theorem rowsOfAll_append (parent : Option Nat) (start : Nat) (ss us : List ParsedSection) :
    rowsOfAll parent start (ss ++ us) =
      rowsOfAll parent start ss ++ rowsOfAll parent (start + (preorders ss).length) us := by
  induction ss generalizing start with
  | nil => rfl
  | cons sec ss ih =>
    rw [List.cons_append, rowsOfAll, rowsOfAll, ih, preorders, List.length_append,
      List.append_assoc, Nat.add_assoc]

theorem rowsOfAll_singleton (parent : Option Nat) (start : Nat) (sec : ParsedSection) :
    rowsOfAll parent start [sec] =
      (parent, entryOf sec) :: rowsOfAll (some start) (start + 1) sec.children := by
  rw [rowsOfAll, rowsOf_eq, rowsOfAll, List.append_nil]

theorem lawfulRows_concat (start : Nat) (es : List Entry) (e : Entry) :
    lawfulRows start (es ++ [e]) =
      lawfulRows start es ++
        [((lastBelow e.depth (es.map Entry.depth)).map (start + ·), e)] := by
  unfold lawfulRows
  rw [List.zipIdx_append, List.map_append]
  congr 1
  · refine List.map_congr_left fun p hp => ?_
    have hlt : p.2 ≤ es.length := Nat.le_of_lt (List.snd_lt_of_mem_zipIdx hp)
    rw [List.take_append_of_le_length hlt]
  · simp

/-! ### Positions on the last branch -/

/-- `j` is the position of the section `n` levels down the last branch. -/
def At : Nat → Nat → List ParsedSection → Nat → Prop
  | 0, start, ss, j => ∃ init sec, ss = init ++ [sec] ∧ j = start + (preorders init).length
  | n + 1, start, ss, j => ∃ init sec, ss = init ++ [sec] ∧
    At n (start + (preorders init).length + 1) sec.children j

theorem At.start_le {n start j : Nat} {ss : List ParsedSection} (h : At n start ss j) :
    start ≤ j := by
  induction n generalizing start ss with
  | zero =>
    obtain ⟨init, sec, -, rfl⟩ := h
    omega
  | succ n ih =>
    obtain ⟨init, sec, -, h⟩ := h
    have := ih h
    omega

theorem preorders_length_concat (init : List ParsedSection) (sec : ParsedSection) :
    (preorders (init ++ [sec])).length =
      (preorders init).length + 1 + (preorders sec.children).length := by
  obtain ⟨title, depth, text, children, dbId⟩ := sec
  rw [preorders_append, List.length_append]
  simp [preorders, preorder]
  omega

/-- The open sections keep their positions whatever happens to the innermost one. -/
theorem At.inside (f : ParsedSection → ParsedSection) {n k start j : Nat}
    {ss : List ParsedSection} (h : At k start ss j) (hk : k ≤ n) :
    At k start (onLast (inside f n) ss) j := by
  induction n generalizing k start ss with
  | zero =>
    obtain rfl := Nat.le_zero.mp hk
    obtain ⟨init, sec, rfl, hj⟩ := h
    rw [onLast_concat]
    exact ⟨init, _, rfl, hj⟩
  | succ n ih =>
    cases k with
    | zero =>
      obtain ⟨init, sec, rfl, hj⟩ := h
      rw [onLast_concat]
      exact ⟨init, _, rfl, hj⟩
    | succ k =>
      obtain ⟨init, sec, rfl, hsec⟩ := h
      rw [onLast_concat]
      exact ⟨init, _, rfl, ih hsec (Nat.le_of_succ_le_succ hk)⟩

/-- A new child of the innermost open section comes last. -/
theorem At.addChild {new : ParsedSection} (hnew : new.children = []) (parent : Option Nat)
    {n start j : Nat} {ss : List ParsedSection} (h : At n start ss j) :
    rowsOfAll parent start (onLast (Parser.inside (Parser.addChild new) n) ss) =
        rowsOfAll parent start ss ++ [(some j, entryOf new)] ∧
      At (n + 1) start (onLast (Parser.inside (Parser.addChild new) n) ss)
        (start + (preorders ss).length) := by
  induction n generalizing start parent ss with
  | zero =>
    obtain ⟨init, sec, rfl, rfl⟩ := h
    rw [onLast_concat, rowsOfAll_append, rowsOfAll_append, rowsOfAll_singleton,
      rowsOfAll_singleton]
    constructor
    · show _ ++ (parent, entryOf sec) :: rowsOfAll _ _ (sec.children ++ [new]) = _
      rw [rowsOfAll_append, rowsOfAll_singleton, hnew]
      simp [rowsOfAll]
    · refine ⟨init, _, rfl, sec.children, new, rfl, ?_⟩
      rw [preorders_length_concat]
      omega
  | succ n ih =>
    obtain ⟨init, sec, rfl, hsec⟩ := h
    obtain ⟨hrows, hat⟩ := ih (some (start + (preorders init).length)) hsec
    rw [onLast_concat, rowsOfAll_append, rowsOfAll_append, rowsOfAll_singleton,
      rowsOfAll_singleton]
    constructor
    · show _ ++ (parent, entryOf sec) :: rowsOfAll _ _
        (onLast (Parser.inside (Parser.addChild new) n) sec.children) = _
      rw [hrows]
      simp
    · refine ⟨init, _, rfl, ?_⟩
      rw [preorders_length_concat]
      have hlen : start + ((preorders init).length + 1 + (preorders sec.children).length) =
          start + (preorders init).length + 1 + (preorders sec.children).length := by omega
      rw [hlen]
      exact hat

/-- The innermost open section, opened last, is the last row. -/
theorem At.setText (g : Bytes → Bytes) (parent : Option Nat) {n start j : Nat}
    {ss : List ParsedSection} (h : At n start ss j)
    (hlast : j + 1 = start + (preorders ss).length) :
    rowsOfAll parent start (onLast (Parser.inside (Parser.setText g) n) ss) =
      onLast (Prod.map id (Entry.setText g)) (rowsOfAll parent start ss) := by
  induction n generalizing start parent ss with
  | zero =>
    obtain ⟨init, sec, rfl, rfl⟩ := h
    rw [preorders_length_concat] at hlast
    have hnone : preorders sec.children = [] := List.length_eq_zero_iff.mp (by omega)
    have hleaf : sec.children = [] := by
      cases hc : sec.children with
      | nil => rfl
      | cons c cs =>
        rw [hc] at hnone
        obtain ⟨title, depth, text, children, dbId⟩ := c
        simp [preorders, preorder] at hnone
    rw [onLast_concat, rowsOfAll_append, rowsOfAll_append, rowsOfAll_singleton,
      rowsOfAll_singleton]
    show _ ++ (parent, _) :: rowsOfAll _ _ sec.children = _
    rw [hleaf]
    show _ ++ [(parent, _)] = onLast _ (_ ++ [(parent, entryOf sec)])
    rw [onLast_concat]
    rfl
  | succ n ih =>
    obtain ⟨init, sec, rfl, hsec⟩ := h
    rw [preorders_length_concat] at hlast
    have hrows := ih (some (start + (preorders init).length)) hsec (by omega)
    rw [onLast_concat, rowsOfAll_append, rowsOfAll_append, rowsOfAll_singleton,
      rowsOfAll_singleton]
    show _ ++ (parent, entryOf sec) :: rowsOfAll _ _
      (onLast (Parser.inside (Parser.setText g) n) sec.children) = _
    rw [hrows]
    cases hne : rowsOfAll (some (start + (preorders init).length))
        (start + (preorders init).length + 1) sec.children using List.reverseRecOn with
    | nil =>
      have hlen := length_rowsOfAll (some (start + (preorders init).length))
        (start + (preorders init).length + 1) sec.children
      rw [hne] at hlen
      have := hsec.start_le
      simp only [List.length_nil] at hlen
      omega
    | append_singleton rows row =>
      rw [onLast_concat]
      have happ : ∀ l : List (Option Nat × Entry), rowsOfAll parent start init ++
          (parent, entryOf sec) :: (rows ++ l) =
            (rowsOfAll parent start init ++ (parent, entryOf sec) :: rows) ++ l := by simp
      rw [happ, happ, onLast_concat]

/-- The row of the section at the place of an open section. -/
theorem At.row (parent : Option Nat) {n start j : Nat} {ss : List ParsedSection}
    (h : At n start ss j) : ∃ sec, sectionAt (branch n ss) ss = some sec ∧
      (rowsOfAll parent start ss)[j - start]?.map Prod.snd = some (entryOf sec) := by
  induction n generalizing start parent ss with
  | zero =>
    obtain ⟨init, sec, rfl, rfl⟩ := h
    refine ⟨sec, ?_, ?_⟩
    · rw [branch_concat_zero]
      simp [sectionAt]
    · rw [rowsOfAll_append, Nat.add_sub_cancel_left,
        List.getElem?_append_right (Nat.le_of_eq (length_rowsOfAll ..)), length_rowsOfAll,
        Nat.sub_self, rowsOfAll_singleton]
      rfl
  | succ n ih =>
    obtain ⟨init, top, rfl, hsec⟩ := h
    obtain ⟨sec, hat, hrow⟩ := ih (some (start + (preorders init).length)) hsec
    refine ⟨sec, ?_, ?_⟩
    · rw [branch_concat_succ, sectionAt_cons _ (branch_ne_nil _ _)]
      simpa using hat
    · have hle := hsec.start_le
      have hlen := length_rowsOfAll parent start init
      rw [rowsOfAll_append, List.getElem?_append_right (by omega), rowsOfAll_singleton, hlen]
      have hidx : j - start - (preorders init).length =
          j - (start + (preorders init).length + 1) + 1 := by omega
      rw [hidx, List.getElem?_cons_succ]
      exact hrow

/-! ### The law along a run -/

/-- The sections on the stack, the innermost first, are at their positions. -/
def Opened (start : Nat) (ss : List ParsedSection) : List (Nat × Nat) → Prop
  | [] => True
  | p :: rest => At rest.length 0 ss (start + p.1) ∧ Opened start ss rest

theorem Opened.dropWhile {start : Nat} {ss : List ParsedSection} {c : List (Nat × Nat)}
    (h : Opened start ss c) (p : Nat × Nat → Bool) : Opened start ss (c.dropWhile p) := by
  induction c with
  | nil => trivial
  | cons q rest ih =>
    rw [List.dropWhile_cons]
    split
    · exact ih h.2
    · exact h

theorem Opened.inside {start n : Nat} {ss : List ParsedSection} {c : List (Nat × Nat)}
    (h : Opened start ss c) (f : ParsedSection → ParsedSection) (hn : c.length ≤ n + 1) :
    Opened start (onLast (inside f n) ss) c := by
  induction c with
  | nil => trivial
  | cons q rest ih =>
    rw [List.length_cons] at hn
    exact ⟨h.1.inside f (Nat.le_of_succ_le_succ hn), ih h.2 (Nat.le_of_succ_le hn)⟩

theorem lawfulRows_entries (start : Nat) (es : List Entry) :
    (lawfulRows start es).map Prod.snd = es := by
  unfold lawfulRows
  rw [List.map_map]
  exact List.zipIdx_map_fst 0 es

/-- The rows are those of the sections that were there before, then those of the entries; on the
stack are the entries that no later one closes. -/
structure Outline.Law (base : List ParsedSection) (o : Outline) (es : List Entry) : Prop where
  rows : rowsOfAll none 0 o.sections =
    rowsOfAll none 0 base ++ lawfulRows (preorders base).length es
  stack : o.stack = (chain (es.map Entry.depth)).map Prod.snd
  opened : Opened (preorders base).length o.sections (chain (es.map Entry.depth))

section Law

variable {base : List ParsedSection} {o : Outline} {es : List Entry} {sec : ParsedSection}

theorem Outline.law_nil (base : List ParsedSection) : Outline.Law base ⟨base, []⟩ [] :=
  ⟨(List.append_nil _).symm, rfl, trivial⟩

theorem Outline.Law.count (h : o.Law base es) :
    (preorders o.sections).length = (preorders base).length + es.length := by
  have hlen := congrArg List.length h.rows
  have hrows := congrArg List.length (lawfulRows_entries (preorders base).length es)
  rw [List.length_map] at hrows
  rw [length_rowsOfAll, List.length_append, length_rowsOfAll, hrows] at hlen
  exact hlen

theorem Outline.Law.stack_eq_nil (h : o.Law base es) : o.stack = [] ↔ es = [] := by
  rw [h.stack]
  cases es using List.reverseRecOn with
  | nil => exact iff_of_true rfl rfl
  | append_singleton es e =>
    rw [List.map_append]
    show (chain (es.map Entry.depth ++ [e.depth])).map Prod.snd = [] ↔ _
    rw [NearestBelow.chain_concat]
    simp

/-- The section is opened under the nearest entry that is less deep. -/
theorem Outline.Law.openSection (h : o.Law base es) (hsec : sec.children = []) :
    (o.openSection sec).Law base (es ++ [entryOf sec]) := by
  have hnear := NearestBelow.head?_dropWhile_chain sec.depth (es.map Entry.depth)
  have hopened := h.opened.dropWhile fun q => decide (sec.depth ≤ q.2)
  have hpop : (o.pop sec.depth).stack =
      ((chain (es.map Entry.depth)).dropWhile fun q => decide (sec.depth ≤ q.2)).map Prod.snd := by
    show o.stack.dropWhile _ = _
    rw [h.stack, List.dropWhile_map]
    rfl
  have hchain : chain ((es ++ [entryOf sec]).map Entry.depth) = (es.length, sec.depth) ::
      (chain (es.map Entry.depth)).dropWhile fun q => decide (sec.depth ≤ q.2) := by
    rw [List.map_append]
    show chain (es.map Entry.depth ++ [sec.depth]) = _
    rw [NearestBelow.chain_concat, List.length_map]
  generalize (chain (es.map Entry.depth)).dropWhile (fun q => decide (sec.depth ≤ q.2)) = c at *
  have hrow : ∀ ss parent, rowsOfAll none 0 ss = rowsOfAll none 0 o.sections ++
      [(parent, entryOf sec)] → parent = (lastBelow sec.depth (es.map Entry.depth)).map
        ((preorders base).length + ·) →
      rowsOfAll none 0 ss = rowsOfAll none 0 base ++
        lawfulRows (preorders base).length (es ++ [entryOf sec]) := by
    intro ss parent hss hparent
    rw [hss, h.rows, hparent, lawfulRows_concat, List.append_assoc]
    rfl
  unfold Outline.openSection Outline.push
  cases c with
  | nil =>
    rw [hpop]
    refine ⟨hrow _ none ?_ ?_, ?_, ?_⟩
    · show rowsOfAll none 0 (o.sections ++ [sec]) = _
      rw [rowsOfAll_append, rowsOfAll_singleton, hsec]
      rfl
    · rw [← hnear]
      rfl
    · rw [hchain]
      rfl
    · rw [hchain]
      refine ⟨⟨o.sections, sec, rfl, ?_⟩, trivial⟩
      rw [h.count, Nat.zero_add]
  | cons p rest =>
    have hlen : (o.pop sec.depth).stack.length - 1 = rest.length := by
      rw [hpop, List.length_map, List.length_cons, Nat.add_sub_cancel]
    have hsections : ((o.pop sec.depth).onTop fun parent =>
        { parent with children := parent.children ++ [sec] }).sections =
          onLast (inside (addChild sec) rest.length) o.sections := by
      show onLast (inside _ ((o.pop sec.depth).stack.length - 1)) _ = _
      rw [hlen]
      rfl
    rw [hpop, List.map_cons]
    dsimp only
    rw [hsections]
    obtain ⟨hrows, hat⟩ := hopened.1.addChild hsec none
    refine ⟨hrow _ _ hrows ?_, ?_, ?_⟩
    · rw [← hnear]
      rfl
    · rw [hchain]
      rfl
    · rw [hchain]
      refine ⟨?_, hopened.inside _ (Nat.le_refl _)⟩
      rw [h.count, Nat.zero_add] at hat
      exact hat

theorem Outline.Law.implicitSection (h : o.Law base es) :
    o.implicitSection.Law base (if es = [] then [⟨[], 0, []⟩] else es) := by
  unfold Outline.implicitSection
  by_cases hes : es = []
  · have hstack := h.stack_eq_nil.mpr hes
    rw [if_pos hstack, if_pos hes]
    have hopen : (o.openSection (heading [] 0)).Law base (es ++ [⟨[], 0, []⟩]) := h.openSection rfl
    have hpop : o.pop (heading [] 0).depth = o := by
      rw [Outline.pop, hstack]
      obtain ⟨sections, stack⟩ := o
      obtain rfl : stack = [] := hstack
      rfl
    rw [Outline.openSection, hpop, hes] at hopen
    exact hopen
  · rw [if_neg (mt h.stack_eq_nil.mp hes), if_neg hes]
    exact h

/-- A text is changed in the section opened last. -/
theorem Outline.Law.setText (h : o.Law base es) (hes : es ≠ []) (g : Bytes → Bytes) :
    (o.onTop (Parser.setText g)).Law base (onLast (Entry.setText g) es) := by
  cases es using List.reverseRecOn with
  | nil => exact absurd rfl hes
  | append_singleton init e =>
    have hchain : chain ((init ++ [e]).map Entry.depth) = (init.length, e.depth) ::
        (chain (init.map Entry.depth)).dropWhile fun q => decide (e.depth ≤ q.2) := by
      rw [List.map_append]
      show chain (init.map Entry.depth ++ [e.depth]) = _
      rw [NearestBelow.chain_concat, List.length_map]
    have hdepths : (init ++ [e.setText g]).map Entry.depth = (init ++ [e]).map Entry.depth := by
      rw [List.map_append, List.map_append]
      rfl
    have hopened := h.opened
    have hstack := h.stack
    have hcount := h.count
    rw [hchain] at hopened hstack
    generalize (chain (init.map Entry.depth)).dropWhile (fun q => decide (e.depth ≤ q.2)) = c
      at hopened hstack hchain
    have hlen : o.stack.length - 1 = c.length := by
      rw [hstack, List.length_map, List.length_cons, Nat.add_sub_cancel]
    rw [onLast_concat, Outline.onTop, hlen]
    rw [List.length_append, List.length_singleton] at hcount
    refine ⟨?_, ?_, ?_⟩
    · show rowsOfAll none 0 (onLast (inside (Parser.setText g) c.length) o.sections) = _
      rw [hopened.1.setText g none (by omega), h.rows, lawfulRows_concat, lawfulRows_concat,
        ← List.append_assoc, onLast_concat, List.append_assoc]
      rfl
    · rw [hdepths, hchain]
      exact hstack
    · rw [hdepths, hchain]
      exact hopened.inside _ (Nat.le_refl _)

end Law

/-! ### The law at the pointers -/

/-- The rows obey the law, and each pointer on the stack denotes the section that was opened for
its entry, still at its place. -/
structure Memory.Lawful (m : Memory) (base : List ParsedSection) (es : List Entry) : Prop where
  rows : rowsOfAll none 0 m.sections =
    rowsOfAll none 0 base ++ lawfulRows (preorders base).length es
  pointers : List.Forall₂ (fun fr p => fr.depth = p.2 ∧
      ∃ sec, m.deref fr = some sec ∧ es[p.1]? = some (entryOf sec))
    m.stack (chain (es.map Entry.depth))

theorem Memory.Holds.lawful {m : Memory} {o : Outline} {base : List ParsedSection}
    {es : List Entry} (h : m.Holds o) (hlaw : o.Law base es) : m.Lawful base es := by
  refine ⟨h.sections ▸ hlaw.rows, ?_⟩
  have hdepths := h.depths.trans hlaw.stack
  have hplaced := h.placed
  have hopened := hlaw.opened
  generalize chain (es.map Entry.depth) = c at hdepths hopened
  generalize hs : m.stack = stack at hdepths hplaced
  clear hs
  induction stack generalizing c with
  | nil =>
    obtain rfl := List.map_eq_nil_iff.mp hdepths.symm
    exact .nil
  | cons fr rest ih =>
    cases c with
    | nil => cases hdepths
    | cons p c =>
      obtain ⟨hdepth, hrest⟩ := List.cons.inj hdepths
      have hlen : rest.length = c.length := by
        simpa using congrArg List.length hrest
      refine .cons ⟨hdepth, ?_⟩ (ih c hopened.2 hrest hplaced.2.2)
      obtain ⟨sec, hsec, hrow⟩ := hopened.1.row none
      refine ⟨sec, ?_, ?_⟩
      · rw [Memory.deref, if_pos hplaced.1, hplaced.2.1, h.sections, hlen]
        exact hsec
      · have hbase := length_rowsOfAll none 0 base
        rw [hlaw.rows, Nat.sub_zero, List.getElem?_append_right (by omega), hbase,
          Nat.add_sub_cancel_left, ← List.getElem?_map, lawfulRows_entries] at hrow
        exact hrow

end Wikore.Parser
