import Wikore.Lib.Forest
import Mathlib.Data.List.Nodup
import Mathlib.Data.List.Perm.Subperm

/-! Rows that name the row above them, put together into trees down to a bound on the depth: which
rows the trees hold, that they hold each row once, and when the bound is too small. -/

namespace ParentForest

/-- A tree with a label at every node. -/
inductive Rose (α : Type*) where
  | node (label : α) (children : List (Rose α))

namespace Rose

variable {α : Type*}

def label : Rose α → α
  | node a _ => a

def children : Rose α → List (Rose α)
  | node _ ts => ts

mutual

/-- The nodes of a tree, each before the nodes below it. -/
def nodes : Rose α → List (Rose α)
  | node a ts => node a ts :: nodesOf ts

def nodesOf : List (Rose α) → List (Rose α)
  | [] => []
  | t :: ts => nodes t ++ nodesOf ts

end

mutual

/-- The tree with the labels changed. -/
def map {β : Type*} (f : α → β) : Rose α → Rose β
  | node a ts => node (f a) (mapAll f ts)

def mapAll {β : Type*} (f : α → β) : List (Rose α) → List (Rose β)
  | [] => []
  | t :: ts => map f t :: mapAll f ts

end

theorem nodesOf_eq_flatMap (ts : List (Rose α)) : nodesOf ts = ts.flatMap nodes := by
  induction ts with
  | nil => rw [nodesOf, List.flatMap_nil]
  | cons t ts ih => rw [nodesOf, List.flatMap_cons, ih]

theorem nodes_node (a : α) (ts : List (Rose α)) :
    (node a ts).nodes = node a ts :: ts.flatMap nodes := by
  rw [nodes, nodesOf_eq_flatMap]

/-- The labels of a forest, each before the labels below it. -/
def labels (ts : List (Rose α)) : List α := (ts.flatMap nodes).map label

theorem labels_node (a : α) (ts : List (Rose α)) : labels [node a ts] = a :: labels ts := by
  simp [labels, nodes_node, label]

theorem label_map {β : Type*} (f : α → β) (t : Rose α) : (t.map f).label = f t.label := by
  cases t
  rfl

theorem mapAll_eq_map {β : Type*} (f : α → β) (ts : List (Rose α)) :
    mapAll f ts = ts.map (map f) := by
  induction ts with
  | nil => rfl
  | cons t ts ih => rw [mapAll, List.map_cons, ih]

theorem children_map {β : Type*} (f : α → β) (t : Rose α) :
    (t.map f).children = t.children.map (map f) := by
  cases t
  rw [map, children, children, mapAll_eq_map]

mutual

theorem nodes_map {β : Type*} (f : α → β) : ∀ t : Rose α, (t.map f).nodes = t.nodes.map (map f)
  | node a ts => by
    rw [map, nodes, nodes, List.map_cons, nodesOf_mapAll f ts, map]

theorem nodesOf_mapAll {β : Type*} (f : α → β) :
    ∀ ts : List (Rose α), nodesOf (mapAll f ts) = (nodesOf ts).map (map f)
  | [] => rfl
  | t :: ts => by
    rw [mapAll, nodesOf, nodesOf, List.map_append, nodes_map f t, nodesOf_mapAll f ts]

end

/-- The labels of a list of nodes whose labels were changed. -/
theorem map_label_map {β : Type*} (f : α → β) (ts : List (Rose α)) :
    (ts.map (map f)).map label = (ts.map label).map f := by
  rw [List.map_map, List.map_map]
  exact List.map_congr_left fun t _ => label_map f t

theorem labels_mapAll {β : Type*} (f : α → β) (ts : List (Rose α)) :
    labels (mapAll f ts) = (labels ts).map f := by
  rw [labels, labels, ← nodesOf_eq_flatMap, ← nodesOf_eq_flatMap, nodesOf_mapAll, map_label_map]

theorem labels_map {β : Type*} (f : β → Rose α) (bs : List β) :
    labels (bs.map f) = bs.flatMap fun b => labels [f b] := by
  simp [labels, List.flatMap_map, List.map_flatMap]

end Rose

section Assembly

variable {α κ : Type*} [DecidableEq κ] (key : α → κ) (up : α → Option κ) (rows : List α)

/-- The rows under a key. -/
def kids (k : κ) : List α := rows.filter fun r => up r = some k

/-- The rows that name nothing above them, or something that is not there. -/
def tops : List α := rows.filter fun r => (up r).all fun p => p ∉ rows.map key

/-- The tree of a row, down to `d` levels below it. -/
def build : Nat → α → Rose α
  | 0, r => .node r []
  | d + 1, r => .node r ((kids up rows (key r)).map (build d))

/-- There is a row that `build` with this bound does not come to. -/
def tooDeep : Nat → α → Bool
  | 0, r => !(kids up rows (key r)).isEmpty
  | d + 1, r => (kids up rows (key r)).any (tooDeep d)

/-- The parent link between keys, where both have a row. -/
def parentIn (k : κ) : Option κ :=
  ((rows.find? fun r => key r = k).bind up).filter fun p => p ∈ rows.map key

/-- The keys are distinct, and no row is above itself. -/
structure Hierarchy : Prop where
  keys : (rows.map key).Nodup
  acyclic : Acyclic (parentIn key up rows)

/-- The forest shows the rows: every row once, under the row that it names. -/
structure Shows (forest : List (Rose α)) : Prop where
  roots : forest.map Rose.label = tops key up rows
  children : ∀ t ∈ forest.flatMap Rose.nodes,
    t.children.map Rose.label = kids up rows (key t.label)
  complete : (Rose.labels forest).Perm rows

variable {key up rows} {r x : α} {d k : Nat}

theorem mem_kids {p : κ} : x ∈ kids up rows p ↔ x ∈ rows ∧ up x = some p := by
  simp [kids]

/-- The parent of a row is a row. -/
theorem row_of_parentIn {k p : κ} (hp : parentIn key up rows k = some p) :
    ∃ r ∈ rows, key r = p := by
  have := (Option.filter_eq_some_iff.mp hp).2
  simpa using this

theorem label_build (d : Nat) (r : α) : (build key up rows d r).label = r := by
  cases d <;> rfl

theorem row_of_ancestor {a : κ} (hx : x ∈ rows)
    (ha : ancestor (parentIn key up rows) k (key x) = some a) : ∃ r ∈ rows, key r = a := by
  induction k generalizing x with
  | zero =>
    cases ha
    exact ⟨x, hx, rfl⟩
  | succ k ih =>
    cases hp : parentIn key up rows (key x) with
    | none => simp [ancestor_succ, hp] at ha
    | some p =>
      obtain ⟨r, hr, rfl⟩ := row_of_parentIn hp
      rw [ancestor_succ_of_parent hp] at ha
      exact ih hr ha

/-- Where the bound is not too small, every node has all the rows under it. -/
theorem children_build (hdeep : tooDeep key up rows d r = false) :
    ∀ t ∈ (build key up rows d r).nodes,
      t.children.map Rose.label = kids up rows (key t.label) := by
  induction d generalizing r with
  | zero =>
    rw [tooDeep, Bool.not_eq_false', List.isEmpty_iff] at hdeep
    intro t ht
    rw [build, Rose.nodes_node, List.flatMap_nil, List.mem_singleton] at ht
    subst ht
    exact hdeep.symm
  | succ d ih =>
    rw [tooDeep, List.any_eq_false] at hdeep
    intro t ht
    rw [build, Rose.nodes_node, List.mem_cons, List.flatMap_map, List.mem_flatMap] at ht
    rcases ht with rfl | ⟨s, hs, ht⟩
    · have hlabel : Rose.label ∘ build key up rows d = id := funext fun s => label_build d s
      rw [Rose.children, List.map_map, hlabel, List.map_id, Rose.label]
    · exact ih (Bool.eq_false_iff.mpr (hdeep s hs)) t ht

theorem labels_build_zero (r : α) : Rose.labels [build key up rows 0 r] = [r] := rfl

namespace Hierarchy

variable (h : Hierarchy key up rows)

include h

theorem find_key (hr : r ∈ rows) : (rows.find? fun s => key s = key r) = some r := by
  have hfound : (rows.find? fun s => key s = key r).isSome :=
    List.find?_isSome.mpr ⟨r, hr, by simp⟩
  obtain ⟨s, hs⟩ := Option.isSome_iff_exists.mp hfound
  have hkey : key s = key r := by simpa using List.find?_some hs
  rw [hs, List.inj_on_of_nodup_map h.keys (List.mem_of_find?_eq_some hs) hr hkey]

theorem parentIn_key (hx : x ∈ rows) (hr : r ∈ rows) :
    parentIn key up rows (key x) = some (key r) ↔ up x = some (key r) := by
  rw [parentIn, h.find_key hx, Option.bind_some, Option.filter_eq_some_iff]
  exact ⟨fun hp => hp.1, fun hp => ⟨hp, by simpa using ⟨r, hr, rfl⟩⟩⟩

/-- One link from below: an ancestor at distance `k + 1` is the parent of one at distance `k`. -/
theorem ancestor_succ_iff (hx : x ∈ rows) (hr : r ∈ rows) :
    ancestor (parentIn key up rows) (k + 1) (key x) = some (key r) ↔
      ∃ s ∈ kids up rows (key r), ancestor (parentIn key up rows) k (key x) = some (key s) := by
  rw [ancestor_succ_last, Option.bind_eq_some_iff]
  constructor
  · rintro ⟨a, ha, hp⟩
    obtain ⟨s, hs, rfl⟩ := row_of_ancestor hx ha
    exact ⟨s, mem_kids.mpr ⟨hs, (h.parentIn_key hs hr).mp hp⟩, ha⟩
  · rintro ⟨s, hs, ha⟩
    obtain ⟨hs, hp⟩ := mem_kids.mp hs
    exact ⟨key s, ha, (h.parentIn_key hs hr).mpr hp⟩

/-- The tree of a row holds the rows that are at most `d` links below it. -/
theorem mem_labels_build (hr : r ∈ rows) :
    x ∈ Rose.labels [build key up rows d r] ↔
      x ∈ rows ∧ ∃ k ≤ d, ancestor (parentIn key up rows) k (key x) = some (key r) := by
  induction d generalizing r with
  | zero =>
    rw [labels_build_zero, List.mem_singleton]
    constructor
    · rintro rfl
      exact ⟨hr, 0, Nat.le_refl 0, rfl⟩
    · rintro ⟨hx, k, hk, ha⟩
      obtain rfl : k = 0 := by omega
      exact List.inj_on_of_nodup_map h.keys hx hr (Option.some.inj ha)
  | succ d ih =>
    rw [build, Rose.labels_node, Rose.labels_map, List.mem_cons, List.mem_flatMap]
    constructor
    · rintro (rfl | ⟨s, hs, hmem⟩)
      · exact ⟨hr, 0, by omega, rfl⟩
      · obtain ⟨hx, k, hk, ha⟩ := (ih (mem_kids.mp hs).1).mp hmem
        exact ⟨hx, k + 1, by omega, (h.ancestor_succ_iff hx hr).mpr ⟨s, hs, ha⟩⟩
    · rintro ⟨hx, k, hk, ha⟩
      cases k with
      | zero => exact .inl (List.inj_on_of_nodup_map h.keys hx hr (Option.some.inj ha))
      | succ k =>
        obtain ⟨s, hs, ha⟩ := (h.ancestor_succ_iff hx hr).mp ha
        exact .inr ⟨s, hs, (ih (mem_kids.mp hs).1).mpr ⟨hx, k, by omega, ha⟩⟩

theorem tooDeep_iff (hr : r ∈ rows) :
    tooDeep key up rows d r = true ↔
      ∃ x ∈ rows, ancestor (parentIn key up rows) (d + 1) (key x) = some (key r) := by
  induction d generalizing r with
  | zero =>
    rw [tooDeep, Bool.not_eq_true', List.isEmpty_eq_false_iff_exists_mem]
    constructor
    · rintro ⟨s, hs⟩
      have hs' := (mem_kids.mp hs).1
      exact ⟨s, hs', (h.ancestor_succ_iff hs' hr).mpr ⟨s, hs, rfl⟩⟩
    · rintro ⟨x, hx, ha⟩
      obtain ⟨s, hs, -⟩ := (h.ancestor_succ_iff hx hr).mp ha
      exact ⟨s, hs⟩
  | succ d ih =>
    rw [tooDeep, List.any_eq_true]
    constructor
    · rintro ⟨s, hs, hdeep⟩
      obtain ⟨x, hx, ha⟩ := (ih (mem_kids.mp hs).1).mp hdeep
      exact ⟨x, hx, (h.ancestor_succ_iff hx hr).mpr ⟨s, hs, ha⟩⟩
    · rintro ⟨x, hx, ha⟩
      obtain ⟨s, hs, ha⟩ := (h.ancestor_succ_iff hx hr).mp ha
      exact ⟨s, hs, (ih (mem_kids.mp hs).1).mpr ⟨x, hx, ha⟩⟩

/-- Two rows at one distance above a third are the same. -/
theorem eq_of_ancestor {s : α} (hr : r ∈ rows) (hs : s ∈ rows)
    (har : ancestor (parentIn key up rows) k (key x) = some (key r))
    (has : ancestor (parentIn key up rows) k (key x) = some (key s)) : r = s :=
  List.inj_on_of_nodup_map h.keys hr hs (Option.some.inj (har.symm.trans has))

theorem nodup_labels_build (hr : r ∈ rows) :
    (Rose.labels [build key up rows d r]).Nodup := by
  induction d generalizing r with
  | zero => rw [labels_build_zero]; exact List.nodup_singleton r
  | succ d ih =>
    rw [build, Rose.labels_node, Rose.labels_map, List.nodup_cons, List.nodup_flatMap]
    refine ⟨fun hmem => ?_, fun s hs => ih (mem_kids.mp hs).1, ?_⟩
    · -- a row under itself would be a cycle
      obtain ⟨s, hs, hmem⟩ := List.mem_flatMap.mp hmem
      obtain ⟨-, k, -, ha⟩ := (h.mem_labels_build (mem_kids.mp hs).1).mp hmem
      exact h.acyclic (key r) k ((h.ancestor_succ_iff hr hr).mpr ⟨s, hs, ha⟩)
    · have hkids : (kids up rows (key r)).Nodup := h.keys.of_map.filter _
      refine hkids.imp_of_mem fun hs ht hne x hxs hxt => ?_
      obtain ⟨hx, j, -, haj⟩ := (h.mem_labels_build (mem_kids.mp hs).1).mp hxs
      obtain ⟨-, k, -, hak⟩ := (h.mem_labels_build (mem_kids.mp ht).1).mp hxt
      have hj := (h.ancestor_succ_iff hx hr).mpr ⟨_, hs, haj⟩
      have hk := (h.ancestor_succ_iff hx hr).mpr ⟨_, ht, hak⟩
      obtain rfl : j = k := by
        have := h.acyclic.depth_unique hj hk
        omega
      exact hne (h.eq_of_ancestor (mem_kids.mp hs).1 (mem_kids.mp ht).1 haj hak)

/-- A row has fewer ancestors than there are rows. -/
theorem ancestor_lt_length {a : κ} (hx : x ∈ rows)
    (ha : ancestor (parentIn key up rows) k (key x) = some a) : k < rows.length := by
  have hsome : ∀ i ≤ k, ∃ b ∈ rows.map key, ancestor (parentIn key up rows) i (key x) = some b := by
    intro i hi
    obtain ⟨j, rfl⟩ := Nat.exists_eq_add_of_le hi
    rw [ancestor_add] at ha
    obtain ⟨b, hb, -⟩ := Option.bind_eq_some_iff.mp ha
    obtain ⟨r, hr, rfl⟩ := row_of_ancestor hx hb
    exact ⟨key r, List.mem_map_of_mem hr, hb⟩
  -- the ancestors up to distance `k` are distinct keys of rows
  let above := (List.range (k + 1)).map fun i => ancestor (parentIn key up rows) i (key x)
  have hnodup : above.Nodup := by
    refine List.Nodup.map_on ?_ List.nodup_range
    intro i hi j hj he
    obtain ⟨b, -, hb⟩ := hsome i (by simpa [Nat.lt_succ_iff] using List.mem_range.mp hi)
    exact h.acyclic.depth_unique hb (he ▸ hb)
  have hsub : above ⊆ (rows.map key).map some := by
    intro o ho
    obtain ⟨i, hi, rfl⟩ := List.mem_map.mp ho
    obtain ⟨b, hb, he⟩ := hsome i (by simpa [Nat.lt_succ_iff] using List.mem_range.mp hi)
    rw [he]
    exact List.mem_map_of_mem hb
  have hle := (List.subperm_of_subset hnodup hsub).length_le
  simp only [above, List.length_map, List.length_range] at hle
  omega

theorem mem_tops : r ∈ tops key up rows ↔ r ∈ rows ∧ parentIn key up rows (key r) = none := by
  simp only [tops, List.mem_filter]
  refine and_congr_right fun hr => ?_
  rw [parentIn, h.find_key hr, Option.bind_some, Option.all_eq_true, Option.filter_eq_none_iff]
  simp

/-- Every row is below a row that has nothing above it. -/
theorem exists_top (hx : x ∈ rows) :
    ∃ r ∈ tops key up rows, ∃ k, ancestor (parentIn key up rows) k (key x) = some (key r) := by
  have hbound : ∀ j b, ancestor (parentIn key up rows) j (key x) = some b → j ≤ rows.length :=
    fun j b hb => Nat.le_of_lt (h.ancestor_lt_length hx hb)
  obtain ⟨k, a, ha, htop⟩ := exists_root hbound
  obtain ⟨r, hr, rfl⟩ := row_of_ancestor hx ha
  exact ⟨r, h.mem_tops.mpr ⟨hr, htop⟩, k, ha⟩

/-- Some top is too deep for the bound exactly when some row has more ancestors than it. -/
theorem any_tooDeep_iff :
    (tops key up rows).any (tooDeep key up rows d) = true ↔
      ∃ x ∈ rows, (ancestor (parentIn key up rows) (d + 1) (key x)).isSome := by
  rw [List.any_eq_true]
  constructor
  · rintro ⟨r, hr, hdeep⟩
    obtain ⟨x, hx, ha⟩ := (h.tooDeep_iff (h.mem_tops.mp hr).1).mp hdeep
    exact ⟨x, hx, by rw [ha]; rfl⟩
  · rintro ⟨x, hx, ha⟩
    obtain ⟨a, ha⟩ := Option.isSome_iff_exists.mp ha
    obtain ⟨r, hr, k, hk⟩ := h.exists_top hx
    -- the row that is `d + 1` links below the top, on the path from `x`
    have hle : d + 1 ≤ k := by
      refine Nat.le_of_not_lt fun hlt => ?_
      obtain ⟨i, hi⟩ : ∃ i, d + 1 = k + (i + 1) := ⟨d - k, by omega⟩
      rw [hi, ancestor_add_of hk, ancestor_succ, (h.mem_tops.mp hr).2] at ha
      cases ha
    obtain ⟨i, rfl⟩ := Nat.exists_eq_add_of_le' hle
    rw [ancestor_add] at hk
    obtain ⟨b, hb, hk⟩ := Option.bind_eq_some_iff.mp hk
    obtain ⟨y, hy, rfl⟩ := row_of_ancestor hx hb
    exact ⟨r, hr, (h.tooDeep_iff (h.mem_tops.mp hr).1).mpr ⟨y, hy, hk⟩⟩

/-- Where the bound is not too small, the trees of the tops show the rows. -/
theorem shows (hdeep : (tops key up rows).any (tooDeep key up rows d) = false) :
    Shows key up rows ((tops key up rows).map (build key up rows d)) where
  roots := by
    have hlabel : Rose.label ∘ build key up rows d = id := funext fun r => label_build d r
    rw [List.map_map, hlabel, List.map_id]
  children := by
    intro t ht
    rw [List.flatMap_map, List.mem_flatMap] at ht
    obtain ⟨r, hr, ht⟩ := ht
    exact children_build (Bool.eq_false_iff.mpr (List.any_eq_false.mp hdeep r hr)) t ht
  complete := by
    have hnodup : (Rose.labels ((tops key up rows).map (build key up rows d))).Nodup := by
      rw [Rose.labels_map, List.nodup_flatMap]
      refine ⟨fun r hr => h.nodup_labels_build (h.mem_tops.mp hr).1, ?_⟩
      have htops : (tops key up rows).Nodup := h.keys.of_map.filter _
      refine htops.imp_of_mem fun {r s} hr hs hne x hxr hxs => ?_
      obtain ⟨hr, hrtop⟩ := h.mem_tops.mp hr
      obtain ⟨hs, hstop⟩ := h.mem_tops.mp hs
      obtain ⟨-, j, -, haj⟩ := (h.mem_labels_build hr).mp hxr
      obtain ⟨-, k, -, hak⟩ := (h.mem_labels_build hs).mp hxs
      have hend : ∀ {t a : κ}, Below (parentIn key up rows) a t →
          parentIn key up rows t = none → t = a := by
        rintro t a ⟨i, hi⟩ htop
        cases i with
        | zero => exact Option.some.inj hi
        | succ i => simp [ancestor_succ, htop] at hi
      rcases Below.total ⟨j, haj⟩ ⟨k, hak⟩ with hb | hb
      · exact hne (List.inj_on_of_nodup_map h.keys hr hs (hend hb hstop).symm)
      · exact hne (List.inj_on_of_nodup_map h.keys hr hs (hend hb hrtop))
    refine (List.perm_ext_iff_of_nodup hnodup h.keys.of_map).mpr fun x => ?_
    rw [Rose.labels_map, List.mem_flatMap]
    constructor
    · rintro ⟨r, hr, hmem⟩
      exact ((h.mem_labels_build (h.mem_tops.mp hr).1).mp hmem).1
    · intro hx
      obtain ⟨r, hr, k, hk⟩ := h.exists_top hx
      refine ⟨r, hr, (h.mem_labels_build (h.mem_tops.mp hr).1).mpr ⟨hx, k, ?_, hk⟩⟩
      refine Nat.le_of_not_lt fun hlt => ?_
      have hany : (tops key up rows).any (tooDeep key up rows d) = true := by
        refine h.any_tooDeep_iff.mpr ⟨x, hx, ?_⟩
        obtain ⟨i, rfl⟩ := Nat.exists_eq_add_of_le (Nat.succ_le_of_lt hlt)
        rw [ancestor_add] at hk
        obtain ⟨b, hb, -⟩ := Option.bind_eq_some_iff.mp hk
        rw [hb]
        rfl
      rw [hdeep] at hany
      cases hany

end Hierarchy

end Assembly

end ParentForest
