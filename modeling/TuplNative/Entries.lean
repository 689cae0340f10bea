import Mathlib.Data.List.Sort
import TuplNative.Algorithm.LowerBound
import TuplNative.Floor

/-- Inserting at the seam of two runs. -/
theorem insertIdx_append {α : Type} (lower upper : List α) (a : α) :
    (lower ++ upper).insertIdx lower.length a = lower ++ a :: upper := by
  induction lower with
  | nil => simp
  | cons b lower ih => simpa using ih

/-- What one attribute says about another one still holds with a new member whose
first attribute no other member has. -/
theorem determines_of_mem_iff {α β γ : Type} {f : α → β} {g : α → γ} {members members' : List α}
    {new : α} (h : ∀ a ∈ members, ∀ b ∈ members, f a = f b → g a = g b)
    (hmem : ∀ a, a ∈ members' ↔ a = new ∨ a ∈ members) (hfresh : ∀ a ∈ members, f a ≠ f new) :
    ∀ a ∈ members', ∀ b ∈ members', f a = f b → g a = g b := by
  intro a ha b hb heq
  rcases (hmem a).mp ha with rfl | ha
  · rcases (hmem b).mp hb with rfl | hb
    · rfl
    · exact absurd heq.symm (hfresh b hb)
  · rcases (hmem b).mp hb with rfl | hb
    · exact absurd heq (hfresh a ha)
    · exact h a ha b hb heq

/-- Entries of an ordered map laid out in a vector: the keys strictly increase. -/
def Sorted {κ ν : Type} [LT κ] (entries : List (κ × ν)) : Prop :=
  entries.Pairwise (fun a b => a.1 < b.1)

namespace Sorted

variable {κ ν : Type} [LinearOrder κ] {entries lower upper : List (κ × ν)} {key : κ} {value : ν}

theorem keys_nodup (h : Sorted entries) : (entries.map Prod.fst).Nodup := by
  rw [List.Nodup, List.pairwise_map]
  exact h.imp fun hlt => hlt.ne

/-- A sorted vector holds at most one entry for a key. -/
theorem eq_of_key_eq (h : Sorted entries) {a b : κ × ν} (ha : a ∈ entries) (hb : b ∈ entries)
    (hkey : a.1 = b.1) : a = b :=
  List.inj_on_of_nodup_map h.keys_nodup ha hb hkey

/-- The first entry with a key is the only one. -/
theorem find?_key_iff [DecidableEq κ] (h : Sorted entries) :
    (entries.find? fun e => decide (e.1 = key)).map Prod.snd = some value ↔ (key, value) ∈ entries := by
  rw [Option.map_eq_some_iff]
  constructor
  · rintro ⟨e, hfound, rfl⟩
    have hkey : decide (e.1 = key) = true :=
      List.find?_some (p := fun e : κ × ν => decide (e.1 = key)) hfound
    obtain rfl := of_decide_eq_true hkey
    exact List.mem_of_find?_eq_some hfound
  · intro hmem
    cases hfound : entries.find? fun e => decide (e.1 = key) with
    | none => exact absurd (decide_eq_true rfl) (List.find?_eq_none.mp hfound _ hmem)
    | some e =>
      have hkey : decide (e.1 = key) = true :=
        List.find?_some (p := fun e : κ × ν => decide (e.1 = key)) hfound
      exact ⟨e, rfl, by rw [h.eq_of_key_eq (List.mem_of_find?_eq_some hfound) hmem (of_decide_eq_true hkey)]⟩

/-- A sorted vector holds an entry once. -/
theorem filter_key_eq [DecidableEq κ] (h : Sorted entries) {e : κ × ν} (he : e ∈ entries) :
    entries.filter (fun a => decide (a.1 = e.1)) = [e] := by
  have hsorted : Sorted (entries.filter fun a => decide (a.1 = e.1)) :=
    List.Pairwise.sublist List.filter_sublist h
  have heq : ∀ a ∈ entries.filter (fun a => decide (a.1 = e.1)), a = e := by
    intro a ha
    obtain ⟨hmem, hkey⟩ := List.mem_filter.mp ha
    exact h.eq_of_key_eq hmem he (of_decide_eq_true hkey)
  have hmem : e ∈ entries.filter fun a => decide (a.1 = e.1) :=
    List.mem_filter.mpr ⟨he, decide_eq_true rfl⟩
  generalize entries.filter (fun a => decide (a.1 = e.1)) = found at hsorted heq hmem
  cases found with
  | nil => cases hmem
  | cons first rest =>
    cases rest with
    | nil => rw [heq first List.mem_cons_self]
    | cons second rest =>
      have hlt := (List.pairwise_cons.mp hsorted).1 second List.mem_cons_self
      rw [heq first List.mem_cons_self, heq second (List.mem_cons_of_mem _ List.mem_cons_self)] at hlt
      exact absurd hlt (lt_irrefl _)

theorem of_sublist (h : Sorted entries) (hsub : lower.Sublist entries) : Sorted lower :=
  List.Pairwise.sublist hsub h

/-- Sorted in only one way. -/
theorem eq_of_perm {entries' : List (κ × ν)} (h : Sorted entries) (h' : Sorted entries')
    (hperm : entries.Perm entries') : entries = entries' :=
  List.Perm.eq_of_pairwise (fun _ _ _ _ hlt hgt => absurd (hlt.trans hgt) (lt_irrefl _)) h h' hperm

/-- Two sorted runs with a new entry between them. -/
theorem append_cons (hlower : Sorted lower) (hupper : Sorted upper)
    (hbelow : ∀ e ∈ lower, e.1 < key) (habove : ∀ e ∈ upper, key < e.1) :
    Sorted (lower ++ (key, value) :: upper) := by
  refine List.pairwise_append.mpr ⟨hlower, List.pairwise_cons.mpr ⟨habove, hupper⟩, ?_⟩
  intro a ha b hb
  rcases List.mem_cons.mp hb with rfl | hb
  · exact hbelow a ha
  · exact (hbelow a ha).trans (habove b hb)

/-- The lower bound of a key cuts a sorted vector into the smaller keys and the
keys from it on. -/
theorem lowerBound_cut (h : Sorted entries) (key : κ) :
    ∃ lower upper, entries = lower ++ upper ∧
      lower.length = std.lowerBound (fun e => decide (e.1 < key)) entries ∧
      (∀ e ∈ lower, e.1 < key) ∧ (∀ e ∈ upper, key ≤ e.1) := by
  obtain ⟨lower, upper, hsplit, hpos, hlower, hupper⟩ :=
    std.lowerBound_spec (fun e : κ × ν => decide (e.1 < key)) entries
      (h.imp fun hlt hpass => decide_eq_true (hlt.trans (of_decide_eq_true hpass)))
  refine ⟨lower, upper, hsplit, hpos, ?_, ?_⟩
  · exact fun e he => of_decide_eq_true (hlower e he)
  · exact fun e he => not_lt.mp (of_decide_eq_false (hupper e he))

/-- In a sorted vector the lower bound of a key is the number of smaller keys. -/
theorem lowerBound_eq_countP (h : Sorted entries) (key : κ) :
    std.lowerBound (fun e => decide (e.1 < key)) entries =
      entries.countP (fun e => decide (e.1 < key)) := by
  obtain ⟨lower, upper, rfl, hpos, hlower, hupper⟩ := h.lowerBound_cut key
  have hall : lower.countP (fun e => decide (e.1 < key)) = lower.length :=
    List.countP_eq_length.mpr fun e he => decide_eq_true (hlower e he)
  have hnone : upper.countP (fun e => decide (e.1 < key)) = 0 :=
    List.countP_eq_zero.mpr fun e he hlt => absurd (of_decide_eq_true hlt) (not_lt.mpr (hupper e he))
  rw [← hpos, List.countP_append, hall, hnone, Nat.add_zero]

/-- A seam is behind the lower bound exactly when nothing above it is smaller
than the key. -/
theorem countP_le_iff (h : Sorted (lower ++ upper)) :
    (lower ++ upper).countP (fun e => decide (e.1 < key)) ≤ lower.length ↔ ∀ e ∈ upper, key ≤ e.1 := by
  have hle := List.countP_le_length (p := fun e : κ × ν => decide (e.1 < key)) (l := lower)
  rw [List.countP_append]
  constructor
  · intro hcount e he
    by_contra hlt
    have hall : lower.countP (fun e => decide (e.1 < key)) = lower.length := by
      refine List.countP_eq_length.mpr fun a ha => decide_eq_true ?_
      exact ((List.pairwise_append.mp h).2.2 a ha e he).trans (not_le.mp hlt)
    have hsome : 0 < upper.countP (fun e => decide (e.1 < key)) :=
      List.countP_pos_iff.mpr ⟨e, he, decide_eq_true (not_le.mp hlt)⟩
    omega
  · intro habove
    have hnone : upper.countP (fun e => decide (e.1 < key)) = 0 :=
      List.countP_eq_zero.mpr fun e he hlt => absurd (of_decide_eq_true hlt) (not_lt.mpr (habove e he))
    omega

/-- A seam is before the lower bound exactly when everything below it is smaller
than the key. -/
theorem le_countP_iff (h : Sorted (lower ++ upper)) :
    lower.length ≤ (lower ++ upper).countP (fun e => decide (e.1 < key)) ↔ ∀ e ∈ lower, e.1 < key := by
  rw [List.countP_append]
  constructor
  · intro hcount e he
    by_contra hlt
    have hfew : lower.countP (fun e => decide (e.1 < key)) < lower.length := by
      refine lt_of_le_of_ne List.countP_le_length fun hall => ?_
      exact hlt (of_decide_eq_true (List.countP_eq_length.mp hall e he))
    have hnone : upper.countP (fun e => decide (e.1 < key)) = 0 := by
      refine List.countP_eq_zero.mpr fun a ha hbelow => hlt ?_
      exact ((List.pairwise_append.mp h).2.2 e he a ha).trans (of_decide_eq_true hbelow)
    omega
  · intro hbelow
    have hall : lower.countP (fun e => decide (e.1 < key)) = lower.length :=
      List.countP_eq_length.mpr fun e he => decide_eq_true (hbelow e he)
    omega

/-- Past the smaller keys, a sorted vector holds the key in its first entry or
not at all. -/
theorem mem_keys_iff_head (h : Sorted (lower ++ upper)) (hlower : ∀ e ∈ lower, e.1 < key)
    (hupper : ∀ e ∈ upper, key ≤ e.1) :
    key ∈ (lower ++ upper).map Prod.fst ↔ ∃ e, upper.head? = some e ∧ e.1 = key := by
  constructor
  · intro hmem
    obtain ⟨e, he, hkey⟩ := List.mem_map.mp hmem
    cases List.mem_append.mp he with
    | inl he => exact absurd hkey (hlower e he).ne
    | inr he =>
      cases upper with
      | nil => cases he
      | cons first rest =>
        rcases List.mem_cons.mp he with rfl | hrest
        · exact ⟨e, rfl, hkey⟩
        · have hfirst := (List.pairwise_cons.mp (List.pairwise_append.mp h).2.1).1 e hrest
          exact absurd (hupper first List.mem_cons_self) (not_le.mpr (hkey ▸ hfirst))
  · rintro ⟨e, he, hkey⟩
    exact List.mem_map.mpr ⟨e, List.mem_append_right _ (List.mem_of_mem_head? he), hkey⟩

theorem key_lt_of_lt (h : Sorted entries) {i j : Nat} {a b : κ × ν} (ha : entries[i]? = some a)
    (hb : entries[j]? = some b) (hij : i < j) : a.1 < b.1 := by
  obtain ⟨hi, rfl⟩ := List.getElem?_eq_some_iff.mp ha
  obtain ⟨hj, rfl⟩ := List.getElem?_eq_some_iff.mp hb
  exact List.pairwise_iff_getElem.mp h i j hi hj hij

/-- An entry has the floor of exactly the keys from its own on and below the next
entry's. -/
theorem isFloor_iff (h : Sorted entries) {j : Nat} {e : κ × ν} (he : entries[j]? = some e) {k : κ} :
    IsFloor {k | k ∈ entries.map Prod.fst} k e.1 ↔
      e.1 ≤ k ∧ ∀ next, entries[j + 1]? = some next → k < next.1 := by
  constructor
  · intro hfloor
    refine ⟨hfloor.le, fun next hnext => ?_⟩
    by_contra hle
    have hmem : next.1 ∈ entries.map Prod.fst := List.mem_map_of_mem (List.mem_of_getElem? hnext)
    have hgreatest : next.1 ≤ e.1 := hfloor.2 ⟨hmem, not_lt.mp hle⟩
    exact absurd (h.key_lt_of_lt he hnext (Nat.lt_succ_self j)) (not_lt.mpr hgreatest)
  · rintro ⟨hle, hnext⟩
    refine ⟨⟨List.mem_map_of_mem (List.mem_of_getElem? he), hle⟩, ?_⟩
    rintro other ⟨hother, hotherle⟩
    obtain ⟨a, ha, rfl⟩ := List.mem_map.mp hother
    obtain ⟨i, hi⟩ := List.mem_iff_getElem?.mp ha
    by_contra habove
    rcases Nat.lt_trichotomy i j with hij | rfl | hij
    · exact habove (h.key_lt_of_lt hi he hij).le
    · rw [he] at hi
      obtain rfl := Option.some.inj hi
      exact habove le_rfl
    · have hinside : j + 1 < entries.length :=
        Nat.lt_of_le_of_lt hij (List.getElem?_eq_some_iff.mp hi).1
      have hlt := hnext _ (List.getElem?_eq_getElem hinside)
      have hstep : entries[j + 1].1 ≤ a.1 := by
        rcases Nat.lt_or_eq_of_le hij with hij | rfl
        · exact (h.key_lt_of_lt (List.getElem?_eq_getElem hinside) hi hij).le
        · rw [List.getElem?_eq_getElem hinside] at hi
          rw [Option.some.inj hi]
      exact absurd (hstep.trans hotherle) (not_le.mpr hlt)

end Sorted

/-- The entries with `(key, value)` added at its place in key order. -/
def sortedInsert {κ ν : Type} [LinearOrder κ] (key : κ) (value : ν) (entries : List (κ × ν)) :
    List (κ × ν) :=
  entries.orderedInsert (fun a b => a.1 ≤ b.1) (key, value)

section sortedInsert

variable {κ ν : Type} [LinearOrder κ] {entries lower upper : List (κ × ν)} {key : κ} {value : ν}

theorem sortedInsert_cons_of_lt {e : κ × ν} (hlt : e.1 < key) :
    sortedInsert key value (e :: entries) = e :: sortedInsert key value entries := by
  rw [sortedInsert, List.orderedInsert_cons, if_neg (not_le.mpr hlt)]
  rfl

/-- A key above the lower run goes into the upper one. -/
theorem sortedInsert_append_right (hlower : ∀ e ∈ lower, e.1 < key) :
    sortedInsert key value (lower ++ upper) = lower ++ sortedInsert key value upper := by
  induction lower with
  | nil => rfl
  | cons e lower ih =>
    have hlt := hlower e List.mem_cons_self
    have hrest := ih fun a ha => hlower a (List.mem_cons_of_mem _ ha)
    rw [List.cons_append, sortedInsert_cons_of_lt hlt, hrest]
    rfl

/-- A key that is not above the upper run goes into the lower one. -/
theorem sortedInsert_append_left (hupper : ∀ e ∈ upper, key ≤ e.1) :
    sortedInsert key value (lower ++ upper) = sortedInsert key value lower ++ upper := by
  induction lower with
  | nil =>
    cases upper with
    | nil => rfl
    | cons e upper => exact List.orderedInsert_cons_of_le _ _ (hupper e List.mem_cons_self)
  | cons e lower ih =>
    rw [List.cons_append, sortedInsert, sortedInsert, List.orderedInsert_cons, List.orderedInsert_cons]
    by_cases hle : key ≤ e.1
    · rw [if_pos hle, if_pos hle]
      rfl
    · rw [if_neg hle, if_neg hle]
      exact congrArg (List.cons e) ih

theorem sortedInsert_append (hlower : ∀ e ∈ lower, e.1 < key) (hupper : ∀ e ∈ upper, key ≤ e.1) :
    sortedInsert key value (lower ++ upper) = lower ++ (key, value) :: upper := by
  rw [sortedInsert_append_right hlower]
  cases upper with
  | nil => rfl
  | cons e upper =>
    exact congrArg (lower ++ ·) (List.orderedInsert_cons_of_le _ _ (hupper e List.mem_cons_self))

/-- Inserting behind the smaller keys. -/
theorem Sorted.insertIdx_countP (h : Sorted entries) :
    entries.insertIdx (entries.countP fun e => decide (e.1 < key)) (key, value) =
      sortedInsert key value entries := by
  obtain ⟨lower, upper, hsplit, hpos, hlower, hupper⟩ := h.lowerBound_cut key
  rw [← h.lowerBound_eq_countP, ← hpos, hsplit, insertIdx_append, sortedInsert_append hlower hupper]

theorem mem_sortedInsert {e : κ × ν} :
    e ∈ sortedInsert key value entries ↔ e = (key, value) ∨ e ∈ entries :=
  List.mem_orderedInsert _

/-- What holds of the new entry and of the others. -/
theorem forall_mem_sortedInsert {p : κ × ν → Prop} :
    (∀ e ∈ sortedInsert key value entries, p e) ↔ p (key, value) ∧ ∀ e ∈ entries, p e := by
  simp only [mem_sortedInsert, forall_eq_or_imp]

theorem sortedInsert_perm (key : κ) (value : ν) (entries : List (κ × ν)) :
    (sortedInsert key value entries).Perm ((key, value) :: entries) :=
  List.perm_orderedInsert _ _ _

theorem Sorted.sortedInsert (h : Sorted entries) (habsent : key ∉ entries.map Prod.fst) :
    Sorted (sortedInsert key value entries) := by
  obtain ⟨lower, upper, rfl, _, hlower, hupper⟩ := h.lowerBound_cut key
  rw [sortedInsert_append hlower hupper]
  refine Sorted.append_cons (List.pairwise_append.mp h).1 (List.pairwise_append.mp h).2.1 hlower ?_
  intro e he
  refine lt_of_le_of_ne (hupper e he) ?_
  rintro rfl
  exact habsent (List.mem_map.mpr ⟨e, List.mem_append_right _ he, rfl⟩)

end sortedInsert
