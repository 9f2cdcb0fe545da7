import Mathlib.Data.List.Rotate

/-! Visits that go round a list: each is of the position after the one before, and the first
position follows the last. -/

namespace RoundRobin

variable {α : Type*} {l v : List α} {c : Nat}

/-- The visited elements, from position `c` on. -/
def Turns (l : List α) : Nat → List α → Prop
  | _, [] => True
  | c, x :: v => l[c]? = some x ∧ Turns l ((c + 1) % l.length) v

theorem Turns.eq_nil (h : Turns ([] : List α) c v) : v = [] := by
  cases v with
  | nil => rfl
  | cons x v => cases h.1

theorem Turns.getElem? (h : Turns l c v) (hc : c < l.length) {i : Nat} (hi : i < v.length) :
    v[i]? = l[(c + i) % l.length]? := by
  induction v generalizing c i with
  | nil => cases hi
  | cons x v ih =>
    obtain ⟨hx, hv⟩ := h
    cases i with
    | zero =>
      rw [List.getElem?_cons_zero, Nat.add_zero, Nat.mod_eq_of_lt hc, hx]
    | succ i =>
      have hpos : 0 < l.length := Nat.zero_lt_of_lt hc
      have hplace : ((c + 1) % l.length + i) % l.length = (c + (i + 1)) % l.length := by
        rw [Nat.mod_add_mod]
        congr 1
        omega
      rw [List.getElem?_cons_succ, ih hv (Nat.mod_lt _ hpos) (Nat.lt_of_succ_lt_succ hi), hplace]

theorem Turns.append {w : List α} (h : Turns l c (v ++ w)) (hc : c < l.length) :
    Turns l ((c + v.length) % l.length) w := by
  induction v generalizing c with
  | nil =>
    rw [List.length_nil, Nat.add_zero, Nat.mod_eq_of_lt hc]
    exact h
  | cons x v ih =>
    have hpos : 0 < l.length := Nat.zero_lt_of_lt hc
    have hplace : ((c + 1) % l.length + v.length) % l.length =
        (c + (x :: v).length) % l.length := by
      rw [Nat.mod_add_mod, List.length_cons]
      congr 1
      omega
    rw [← hplace]
    exact ih h.2 (Nat.mod_lt _ hpos)

theorem Turns.of_append {w : List α} (h : Turns l c (v ++ w)) : Turns l c v := by
  induction v generalizing c with
  | nil => trivial
  | cons x v ih => exact ⟨h.1, ih h.2⟩

/-- One round at most is a part of the rotated list. -/
theorem Turns.rotate (h : Turns l c v) (hc : c < l.length) (hlen : v.length ≤ l.length) :
    v <+: l.rotate c := by
  rw [List.prefix_iff_getElem?]
  intro i hi
  have hplace := h.getElem? hc hi
  rw [List.getElem?_eq_getElem hi] at hplace
  rw [List.getElem?_rotate (Nat.lt_of_lt_of_le hi hlen), Nat.add_comm, ← hplace]

theorem Turns.nodup (h : Turns l c v) (hc : c < l.length) (hlen : v.length ≤ l.length)
    (hl : l.Nodup) : v.Nodup :=
  (h.rotate hc hlen).sublist.nodup (List.nodup_rotate.mpr hl)

/-- A round visits everything. -/
theorem Turns.mem (h : Turns l c v) (hc : c < l.length) (hlen : l.length ≤ v.length) {x : α}
    (hx : x ∈ l) : x ∈ v := by
  have hround : (v.take l.length).length = l.length := by
    rw [List.length_take, Nat.min_eq_left hlen]
  have hturns : Turns l c (v.take l.length) := by
    apply Turns.of_append (w := v.drop l.length)
    rwa [List.take_append_drop]
  have hpre := hturns.rotate hc (Nat.le_of_eq hround)
  have heq : v.take l.length = l.rotate c :=
    hpre.eq_of_length (hround.trans (List.length_rotate l c).symm)
  have hmem : x ∈ v.take l.length := by
    rw [heq, List.mem_rotate]
    exact hx
  exact List.mem_of_mem_take hmem

/-- So does every part of the visits that is as long as a round. -/
theorem Turns.mem_of_block (h : Turns l c v) (hc : c < l.length) {w : List α} (hw : w <:+: v)
    (hlen : l.length ≤ w.length) {x : α} (hx : x ∈ l) : x ∈ w := by
  obtain ⟨p, q, rfl⟩ := hw
  rw [List.append_assoc] at h
  have hpos : 0 < l.length := Nat.zero_lt_of_lt hc
  exact (h.append hc).of_append.mem (Nat.mod_lt _ hpos) hlen hx

end RoundRobin
