import TuplNative.BudgetedMap
import TuplNative.Run

namespace BudgetedMap

variable {κ ν : Type} [LinearOrder κ] {weight : κ × ν → Nat} {limit budget : Nat}

theorem ext_entries {map map' : BudgetedMap κ ν weight limit budget} (h : map.entries = map'.entries) :
    map = map' := by
  cases map
  cases map'
  cases h
  rfl

/-- One entry on the way to a filled map: an entry that is not added ends it. -/
def take (map : BudgetedMap κ ν weight limit budget) (e : κ × ν) :
    Option (BudgetedMap κ ν weight limit budget) :=
  if (map.insert e.1 e.2).1 = .added then some (map.insert e.1 e.2).2 else none

variable {map map' : BudgetedMap κ ν weight limit budget} {e : κ × ν} {entries entries' : List (κ × ν)}

/-- That the larger map is one is all that an entry is asked for. -/
theorem insert_of_entries (h : map'.entries = sortedInsert e.1 e.2 map.entries) :
    map.insert e.1 e.2 = (.added, map') := by
  have hperm : map'.entries.Perm (e :: map.entries) := h ▸ sortedInsert_perm e.1 e.2 map.entries
  have hnodup := (hperm.map Prod.fst).nodup_iff.mp map'.sorted.keys_nodup
  have heach : weight (e.1, e.2) ≤ limit := map'.each e (hperm.mem_iff.mpr List.mem_cons_self)
  have hwithin := map'.within
  rw [(hperm.map weight).sum_eq, List.map_cons, List.sum_cons] at hwithin
  have hrefuses : ¬ map.Refuses e.1 e.2 :=
    fun hrefuses => hrefuses.elim (List.nodup_cons.mp hnodup).1 (Nat.not_lt.mpr heach)
  have hroom : ¬ map.Overflows e.1 e.2 := by
    change ¬ budget - (map.entries.map weight).sum < weight e
    omega
  rw [insert, dif_neg hrefuses, dif_neg hroom]
  exact congrArg _ (ext_entries h.symm)

theorem take_eq_some_iff : map.take e = some map' ↔ map'.entries = sortedInsert e.1 e.2 map.entries := by
  unfold take
  constructor
  · intro h
    split at h
    · rename_i hadded
      cases h
      exact insert_added_entries map e.1 e.2 hadded
    · cases h
  · intro h
    rw [insert_of_entries h, if_pos rfl]

/-- The map with one entry left out. -/
def without (map : BudgetedMap κ ν weight limit budget) (lower upper : List (κ × ν))
    (h : map.entries = lower ++ e :: upper) : BudgetedMap κ ν weight limit budget where
  entries := lower ++ upper
  sorted := map.sorted.of_sublist (h ▸ (List.sublist_cons_self e upper).append_left lower)
  each := fun a ha => map.each a (h ▸ ((List.sublist_cons_self e upper).append_left lower).subset ha)
  within := by
    have hwithin := map.within
    rw [h, (List.perm_middle.map weight).sum_eq, List.map_cons, List.sum_cons] at hwithin
    omega

/-- Putting it in again gives the map back. -/
theorem take_without {lower upper : List (κ × ν)} (h : map.entries = lower ++ e :: upper) :
    (map.without lower upper h).take e = some map := by
  have hpairs := map.sorted
  rw [h] at hpairs
  obtain ⟨_, hupper, hcross⟩ := List.pairwise_append.mp hpairs
  rw [take_eq_some_iff, h]
  refine (sortedInsert_append ?_ ?_).symm
  · exact fun a ha => hcross a ha e List.mem_cons_self
  · exact fun b hb => (List.rel_of_pairwise_cons hupper hb).le

/-- Taken one by one, in whichever order, the entries of a map that an earlier one is
without make the later map of the earlier, and nothing else does. -/
theorem run_take_iff :
    run take map entries = some map' ↔ map'.entries.Perm (map.entries ++ entries) := by
  induction entries using List.reverseRecOn generalizing map' with
  | nil =>
    rw [List.append_nil]
    constructor
    · intro h
      cases h
      exact .refl _
    · intro hperm
      have hsame : map'.entries = map.entries := Sorted.eq_of_perm map'.sorted map.sorted hperm
      exact congrArg some (ext_entries hsame.symm)
  | append_singleton entries e ih =>
    rw [run.run_concat_eq_some, ← List.append_assoc]
    constructor
    · rintro ⟨before, hbefore, htake⟩
      rw [take_eq_some_iff.mp htake]
      calc (sortedInsert e.1 e.2 before.entries).Perm (e :: before.entries) := sortedInsert_perm _ _ _
        _ |>.Perm (e :: (map.entries ++ entries)) := (ih.mp hbefore).cons e
        _ |>.Perm (map.entries ++ entries ++ [e]) := (List.perm_append_singleton e _).symm
    · intro hperm
      have hmem : e ∈ map'.entries := hperm.mem_iff.mpr (List.mem_append_right _ List.mem_cons_self)
      obtain ⟨lower, upper, hsplit⟩ := List.append_of_mem hmem
      refine ⟨map'.without lower upper hsplit, ih.mpr ?_, take_without hsplit⟩
      have hmiddle : (e :: (lower ++ upper)).Perm (e :: (map.entries ++ entries)) :=
        (List.perm_middle.symm.trans (hsplit ▸ hperm)).trans (List.perm_append_singleton e _)
      exact hmiddle.cons_inv

/-- The order in which entries come does not matter. -/
theorem run_take_perm (map : BudgetedMap κ ν weight limit budget) (h : entries.Perm entries') :
    run take map entries = run take map entries' := by
  apply Option.ext
  intro map'
  rw [run_take_iff, run_take_iff]
  have hboth := h.append_left map.entries
  exact ⟨fun hperm => hperm.trans hboth, fun hperm => hperm.trans hboth.symm⟩

/-- Entries make a map when they have different keys and keep the limit and the budget. -/
theorem exists_perm_iff : (∃ map : BudgetedMap κ ν weight limit budget, map.entries.Perm entries) ↔
    (entries.map Prod.fst).Nodup ∧ (∀ e ∈ entries, weight e ≤ limit) ∧ (entries.map weight).sum ≤ budget := by
  constructor
  · rintro ⟨map, hperm⟩
    refine ⟨(hperm.map Prod.fst).nodup_iff.mp map.sorted.keys_nodup, ?_, ?_⟩
    · exact fun e he => map.each e (hperm.mem_iff.mpr he)
    · exact (hperm.map weight).sum_eq ▸ map.within
  · rintro ⟨hnodup, heach, hwithin⟩
    induction entries with
    | nil => exact ⟨empty, .refl _⟩
    | cons e entries ih =>
      obtain ⟨hfresh, hnodup⟩ := List.nodup_cons.mp hnodup
      rw [List.map_cons, List.sum_cons] at hwithin
      obtain ⟨map, hperm⟩ := ih hnodup (fun a ha => heach a (List.mem_cons_of_mem _ ha)) (by omega)
      have hrefuses : ¬ map.Refuses e.1 e.2 := by
        rintro (hmem | hbig)
        · exact hfresh ((hperm.map Prod.fst).mem_iff.mp hmem)
        · exact absurd (heach e List.mem_cons_self) (Nat.not_le.mpr hbig)
      have hroom : ¬ map.Overflows e.1 e.2 := by
        have htotal : map.total = (entries.map weight).sum := (hperm.map weight).sum_eq
        change ¬ budget - map.total < weight e
        omega
      exact ⟨map.add e.1 e.2 hrefuses hroom, (sortedInsert_perm e.1 e.2 map.entries).trans (hperm.cons e)⟩

/-- So all of them are taken when they differ from each other and from what is there, and
keep the limit each and the budget together. -/
theorem run_take_isSome_iff : (run take map entries).isSome ↔
    (entries.map Prod.fst).Nodup ∧ (∀ e ∈ entries, e.1 ∉ map.keys ∧ weight e ≤ limit) ∧
      map.total + (entries.map weight).sum ≤ budget := by
  have hfilled : (run take map entries).isSome ↔
      ∃ map' : BudgetedMap κ ν weight limit budget, map'.entries.Perm (map.entries ++ entries) := by
    rw [Option.isSome_iff_exists]
    exact exists_congr fun _ => run_take_iff
  have hkeys := map.sorted.keys_nodup
  have hweights := map.each
  have htotal : map.total = (map.entries.map weight).sum := rfl
  rw [hfilled, exists_perm_iff, List.map_append, List.map_append, List.sum_append, List.nodup_append',
    htotal]
  constructor
  · rintro ⟨⟨_, hnodup, hdisjoint⟩, heach, hwithin⟩
    refine ⟨hnodup, fun e he => ⟨fun hmem => ?_, heach e (List.mem_append_right _ he)⟩, hwithin⟩
    exact hdisjoint hmem (List.mem_map_of_mem he)
  · rintro ⟨hnodup, heach, hwithin⟩
    refine ⟨⟨hkeys, hnodup, ?_⟩, ?_, hwithin⟩
    · intro key hmem hnew
      obtain ⟨e, he, rfl⟩ := List.mem_map.mp hnew
      exact (heach e he).1 hmem
    · intro e he
      rcases List.mem_append.mp he with he | he
      · exact hweights e he
      · exact (heach e he).2

end BudgetedMap
