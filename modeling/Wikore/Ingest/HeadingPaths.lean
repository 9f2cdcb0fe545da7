import Wikore.Lib.ArrayInput
import Mathlib.Data.List.TakeWhile

/-! The text of a heading path, as `pg_text_array` writes its bytes and the database reads them. -/

namespace Wikore.HeadingPaths

open ArrayInput (arrayIn escaped token step readLevels Reading Value)

/-- One heading, in quotes. -/
def quote (s : List UInt8) : List UInt8 := 34 :: (s.flatMap escaped ++ [34])

def separated : List (List UInt8) → List UInt8
  | [] => []
  | [s] => quote s
  | s :: rest => quote s ++ 44 :: separated rest

/-- `pg_text_array`. -/
def pgTextArray (v : List (List UInt8)) : List UInt8 := 123 :: (separated v ++ [125])

theorem separated_cons (s t : List UInt8) (rest : List (List UInt8)) :
    separated (s :: t :: rest) = quote s ++ 44 :: separated (t :: rest) := rfl

/-- Between the braces, where `n` elements have been read and the next one is due. -/
def within (n : Nat) (items : List (Option (List UInt8))) (frozen : Bool) : Reading :=
  ⟨[n], [none], frozen, false, items⟩

theorem readLevels_separated (s : List UInt8) (rest : List (List UInt8)) (n : Nat)
    (items : List (Option (List UInt8))) (frozen : Bool) :
    readLevels (within n items frozen) (separated (s :: rest) ++ [125]) =
      some (⟨[], [some (n + (s :: rest).length)], true, true, items ++ (s :: rest).map some⟩, []) := by
  induction rest generalizing s n items frozen with
  | nil =>
    have htoken := ArrayInput.token_quoted s [] (c := 125) (by decide)
    have hinput : separated [s] ++ [125] = 34 :: (s.flatMap escaped ++ [34, 125]) := by
      simp [separated, quote]
    rw [hinput, ArrayInput.readLevels_next htoken rfl (List.cons_ne_nil _ _)]
    exact ArrayInput.readLevels_last rfl rfl rfl
  | cons t rest ih =>
    have htoken := ArrayInput.token_quoted s (separated (t :: rest) ++ [125]) (c := 44) (by decide)
    have hinput : separated (s :: t :: rest) ++ [125] =
        34 :: (s.flatMap escaped ++ 34 :: 44 :: (separated (t :: rest) ++ [125])) := by
      simp [separated_cons, quote]
    rw [hinput, ArrayInput.readLevels_next htoken rfl (List.cons_ne_nil _ _)]
    have hcomma : token (44 :: (separated (t :: rest) ++ [125])) =
        some (.delimiter, separated (t :: rest) ++ [125]) := rfl
    rw [ArrayInput.readLevels_next hcomma rfl (List.cons_ne_nil _ _)]
    refine (ih t (n + 1) (items ++ [some s]) true).trans ?_
    simp only [List.map_cons, List.append_assoc, List.singleton_append, List.length_cons]
    rw [show n + 1 + (rest.length + 1) = n + (rest.length + 1 + 1) by omega]

theorem forall_mem_escaped {c : UInt8} (h : c ≠ 0) : ∀ b ∈ escaped c, b ≠ 0 := by
  unfold escaped
  split <;> simp [h]

theorem forall_mem_quote {s : List UInt8} (h : 0 ∉ s) : ∀ b ∈ quote s, b ≠ 0 := by
  intro b hb
  rcases List.mem_cons.mp hb with rfl | hb
  · decide
  rcases List.mem_append.mp hb with hb | hb
  · obtain ⟨c, hc, hb⟩ := List.mem_flatMap.mp hb
    refine forall_mem_escaped ?_ b hb
    rintro rfl
    exact h hc
  · obtain rfl := List.mem_singleton.mp hb
    decide

theorem forall_mem_separated {v : List (List UInt8)} (h : ∀ s ∈ v, 0 ∉ s) :
    ∀ b ∈ separated v, b ≠ 0 := by
  induction v with
  | nil => nofun
  | cons s rest ih =>
    have hs := forall_mem_quote (h s List.mem_cons_self)
    cases rest with
    | nil => exact hs
    | cons t rest =>
      have hrest := ih fun u hu => h u (List.mem_cons_of_mem s hu)
      rw [separated_cons]
      intro b hb
      rcases List.mem_append.mp hb with hb | hb
      · exact hs b hb
      rcases List.mem_cons.mp hb with rfl | hb
      · decide
      · exact hrest b hb

theorem takeWhile_pgTextArray {v : List (List UInt8)} (h : ∀ s ∈ v, 0 ∉ s) :
    (pgTextArray v).takeWhile (fun c => c ≠ 0) = pgTextArray v := by
  refine List.takeWhile_eq_self_iff.mpr fun b hb => decide_eq_true ?_
  rcases List.mem_cons.mp hb with rfl | hb
  · decide
  rcases List.mem_append.mp hb with hb | hb
  · exact forall_mem_separated h b hb
  · obtain rfl := List.mem_singleton.mp hb
    decide

/-- The elements of the array that the database reads are the texts: none is split, joined or
null, whatever their bytes. -/
theorem arrayIn_pgTextArray (decorated : List UInt8 → Option Value) (v : List (List UInt8))
    (h : ∀ s ∈ v, 0 ∉ s) :
    arrayIn decorated (pgTextArray v) =
      some ⟨if v = [] then [] else [v.length], v.map some⟩ := by
  have hinput : ((pgTextArray v).takeWhile fun c => c ≠ 0).dropWhile ArrayInput.isBlank =
      123 :: (separated v ++ [125]) := by
    rw [takeWhile_pgTextArray h]
    rfl
  have hopen : token (123 :: (separated v ++ [125])) = some (.levelStart, separated v ++ [125]) :=
    rfl
  have hlevel : step ⟨[], [], false, false, []⟩ .levelStart = some (within 0 [] false) := rfl
  unfold arrayIn
  rw [hinput]
  dsimp only
  rw [List.head?_cons, if_neg (by decide), if_pos rfl,
    ArrayInput.readLevels_next hopen hlevel (List.cons_ne_nil _ _)]
  cases v with
  | nil =>
    have hclose : readLevels (within 0 [] false) (separated [] ++ [125]) =
        some (⟨[], [some 0], false, true, []⟩, []) := ArrayInput.readLevels_last rfl rfl rfl
    rw [hclose]
    rfl
  | cons s rest =>
    rw [readLevels_separated, if_neg (List.cons_ne_nil s rest)]
    simp [ArrayInput.valueOf]

/-- A path with an empty text, the word NULL, and the bytes that have a meaning in a literal. -/
theorem arrayIn_awkward : arrayIn (fun _ => none)
    (pgTextArray [[], [78, 85, 76, 76], [34, 92, 44, 123, 125, 32]]) =
    some ⟨[3], [some [], some [78, 85, 76, 76], some [34, 92, 44, 123, 125, 32]]⟩ :=
  arrayIn_pgTextArray (fun _ => none) [[], [78, 85, 76, 76], [34, 92, 44, 123, 125, 32]] (by decide)

end Wikore.HeadingPaths
