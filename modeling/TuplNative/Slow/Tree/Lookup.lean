import TuplNative.Slow.LeafNode.Map
import TuplNative.Slow.Tree.Contents
import TuplNative.Slow.Tree.Exception

namespace tupl.pvt.slow.Tree

/-- The value that the leaf the search reaches has under a key. -/
def lookup (search : ChildSearch) (tree : Tree) (key : Bytes) : Option Bytes :=
  (tree.leafFor search key).bind fun leaf => (leaf.mChildren.find? fun e => decide (e.1 = key)).map Prod.snd

/-- The map has the key already, or the entry is over a quarter of the capacity. -/
def RefusedBy (map : Bytes → Option Bytes) (entry : Bytes × Bytes) : Prop :=
  (map entry.1).isSome = true ∨ 1024 < entry.1.data.length + entry.2.data.length

instance (map : Bytes → Option Bytes) (entry : Bytes × Bytes) : Decidable (RefusedBy map entry) :=
  inferInstanceAs (Decidable (_ ∨ _))

/-- What a tree is for: a map that keeps the first value which it takes for a key. -/
def mapAfter (map : Bytes → Option Bytes) (entry : Bytes × Bytes) : Bytes → Option Bytes :=
  if RefusedBy map entry then map else Function.update map entry.1 (some entry.2)

/-- The map, with a history of which entries it has refused. -/
def mapAnswered (state : (Bytes → Option Bytes) × List Bool) (entry : Bytes × Bytes) :
    (Bytes → Option Bytes) × List Bool :=
  (mapAfter state.1 entry, state.2 ++ [decide (RefusedBy state.1 entry)])

/-- A caught insert, with a history of which calls have thrown. -/
def insertAnswered (search : ChildSearch) (ndebug : Bool) (state : Tree × List Bool) (entry : Bytes × Bytes) :
    Option (Tree × List Bool) :=
  match (Tree.insert search ndebug entry.1 entry.2).exec state.1 with
  | (.ok (), tree) => some (tree, state.2 ++ [false])
  | (.error failure, tree) => if failure.isException then some (tree, state.2 ++ [true]) else none

/-- The tree answers as the map does: the search finds what the map has under a key, and the
calls have thrown at what the map refused. -/
def Answers (search : ChildSearch) (offered : List (Bytes × Bytes)) (state : Tree × List Bool) : Prop :=
  (lookup search state.1, state.2) = offered.foldl mapAnswered (fun _ => none, [])

/-- If the leaf that the entry goes to is full, then the key is above the key at its cut; and
the root does not throw at the separator that it is offered. -/
structure Separable (search : ChildSearch) (ndebug : Bool) (tree : Tree) (entry : Bytes × Bytes) : Prop where
  aboveCut : AboveCut search tree entry
  fits : ∀ separator ∈ offered search ndebug tree entry.1 entry.2, ¬ RootThrows ndebug tree separator

section Lookup

variable {search : ChildSearch} {entries : List (Bytes × Bytes)} {nulls : Nat} {root : InternalNode}
  {leaves : List LeafNode} {index : Nat} {leaf : LeafNode} {key value separator : Bytes}

theorem LeadsTo.lookup_eq_some_iff (h : LeadsTo search root leaves key separator index leaf)
    (hlinked : Linked root leaves) :
    lookup search (twoLevel nulls root leaves) key = some value ↔ (key, value) ∈ leaf.mChildren := by
  have hsorted := (hlinked.counted leaf (List.mem_of_getElem? h.leaf_eq)).sorted
  rw [lookup, h.leafFor_eq, Option.bind_some, hsorted.find?_key_iff]

theorem LeadsTo.lookup_isSome_iff (h : LeadsTo search root leaves key separator index leaf)
    (hlinked : Linked root leaves) :
    (lookup search (twoLevel nulls root leaves) key).isSome = true ↔ key ∈ leaf.keys := by
  simp only [Option.isSome_iff_exists, h.lookup_eq_some_iff hlinked, LeafNode.keys, List.mem_map]
  constructor
  · rintro ⟨value, hmem⟩
    exact ⟨_, hmem, rfl⟩
  · rintro ⟨e, hmem, rfl⟩
    exact ⟨e.2, hmem⟩

/-- The leaf refuses what the map refuses that the tree answers as. -/
theorem LeadsTo.refuses_iff (h : LeadsTo search root leaves key separator index leaf)
    (hlinked : Linked root leaves) (nulls : Nat) (value : Bytes) :
    leaf.Refuses key value ↔ RefusedBy (lookup search (twoLevel nulls root leaves)) (key, value) := by
  rw [LeafNode.Refuses, RefusedBy, h.lookup_isSome_iff hlinked, Node.tooBig_iff, leaf_entrySize_toNat]

/-- Where all entries are placed, the search finds just these. -/
theorem Placed.lookup_eq_some_iff (h : Placed entries root leaves) (search : ChildSearch) (nulls : Nat) :
    lookup search (twoLevel nulls root leaves) key = some value ↔ (key, value) ∈ entries := by
  obtain ⟨separator, index, leaf, hleads⟩ := h.linked.exists_leadsTo search key
  rw [hleads.lookup_eq_some_iff h.linked, ← h.contents]
  constructor
  · exact fun hmem => ⟨leaf, List.mem_of_getElem? hleads.leaf_eq, hmem⟩
  · rintro ⟨other, hother, hmem⟩
    obtain ⟨place, hplace⟩ := List.mem_iff_getElem?.mp hother
    have hfound : (twoLevel nulls root leaves).leafFor search key = some other :=
      h.leafFor_eq search hplace hmem
    rw [hleads.leafFor_eq] at hfound
    rwa [Option.some.inj hfound]

/-- A further entry is one more answer of the search. -/
theorem Placed.lookup_concat {root' : InternalNode} {leaves' : List LeafNode}
    (h : Placed entries root leaves) (h' : Placed (entries ++ [(key, value)]) root' leaves')
    (hrefused : ¬ RefusedBy (lookup search (twoLevel nulls root leaves)) (key, value)) :
    lookup search (twoLevel nulls root' leaves') =
      mapAfter (lookup search (twoLevel nulls root leaves)) (key, value) := by
  rw [mapAfter, if_neg hrefused]
  refine funext fun other => Option.ext fun found => ?_
  rw [h'.lookup_eq_some_iff search nulls, List.mem_append, List.mem_singleton]
  by_cases hsame : other = key
  · subst hsame
    rw [Function.update_self, Option.some.injEq, ← h.lookup_eq_some_iff search nulls]
    have hnone : lookup search (twoLevel nulls root leaves) other ≠ some found := by
      intro hfound
      exact hrefused (Or.inl (by rw [hfound]; rfl))
    simp only [hnone, false_or, Prod.mk.injEq, true_and, eq_comm]
  · rw [Function.update_of_ne hsame, h.lookup_eq_some_iff search nulls]
    simp only [Prod.mk.injEq, hsame, false_and, or_false]

end Lookup

section Step

variable {search : ChildSearch} {ndebug : Bool} {entries : List (Bytes × Bytes)} {nulls : Nat}
  {root : InternalNode} {leaves : List LeafNode} {index : Nat} {leaf : LeafNode} {separator : Bytes}
  {entry : Bytes × Bytes} {threw : List Bool} {state' : Tree × List Bool}

/-- An insert that returns does to what the search finds what it does to the map. -/
theorem Placed.step_of_returned (h : Placed entries root leaves) (ndebug : Bool)
    (habove : AboveCut search (twoLevel nulls root leaves) entry) (tree : Tree)
    (hrefused : ¬ RefusedBy (lookup search (twoLevel nulls root leaves)) entry)
    (hexec : (Tree.insert search ndebug entry.1 entry.2).exec (twoLevel nulls root leaves) = (.ok (), tree)) :
    ∃ root' leaves', tree = twoLevel nulls root' leaves' ∧ Placed (entries ++ [entry]) root' leaves' ∧
      lookup search tree = mapAfter (lookup search (twoLevel nulls root leaves)) entry := by
  have hstep : insertReturned search ndebug (twoLevel nulls root leaves) entry = some tree := by
    rw [insertReturned, hexec]
  obtain ⟨root', leaves', rfl, hplaced⟩ := h.step habove hstep
  exact ⟨root', leaves', rfl, hplaced, h.lookup_concat hplaced hrefused⟩

/-- A separable entry leaves the tree with its entries placed, and the call answers as the map
does. -/
theorem Placed.step_answered (h : Placed entries root leaves)
    (hseparable : Separable search ndebug (twoLevel nulls root leaves) entry)
    (hstep : insertAnswered search ndebug (twoLevel nulls root leaves, threw) entry = some state') :
    ∃ entries' root' leaves', state'.1 = twoLevel nulls root' leaves' ∧ Placed entries' root' leaves' ∧
      (lookup search state'.1, state'.2) =
        mapAnswered (lookup search (twoLevel nulls root leaves), threw) entry := by
  obtain ⟨separator, index, leaf, hleads⟩ := h.linked.exists_leadsTo search entry.1
  have hrefused := hleads.refuses_iff h.linked nulls entry.2
  have houtcome := hleads.outcome h.linked nulls ndebug entry.2
  have hreturned := h.step_of_returned ndebug hseparable.aboveCut
  have hfits : ∀ {sibling : NodePtr}, ¬ leaf.Refuses entry.1 entry.2 → ¬ leaf.Blocked ndebug entry.1 entry.2 →
      (pending leaves leaf entry.1 entry.2).sibling = some sibling →
      ¬ RootThrows ndebug (twoLevel nulls root leaves) (pending leaves leaf entry.1 entry.2).key :=
    fun hrefuses hblocked hsibling => hseparable.fits _ (hleads.mem_offered hrefuses hblocked hsibling)
  unfold insertAnswered at hstep
  unfold mapAnswered
  dsimp only at hstep
  generalize (Tree.insert search ndebug entry.1 entry.2).exec (twoLevel nulls root leaves) = result
    at hstep houtcome hreturned
  cases houtcome with
  | refused hrefuses what =>
    cases hstep
    refine ⟨entries, root, leaves, rfl, h, ?_⟩
    rw [mapAfter, if_pos (hrefused.mp hrefuses), decide_eq_true (hrefused.mp hrefuses)]
  | blocked hblocked failed => cases hstep
  | settled hrefuses hblocked hsibling =>
    cases hstep
    have hnot := fun hmap => hrefuses (hrefused.mpr hmap)
    obtain ⟨root', leaves', htree, hplaced, hlookup⟩ := hreturned _ hnot rfl
    refine ⟨_, root', leaves', htree, hplaced, ?_⟩
    rw [hlookup, decide_eq_false hnot]
  | tooBig hrefuses hblocked sibling hsibling hbig =>
    exact absurd ((rootThrows_twoLevel _ _).mpr (Or.inl hbig)) (hfits hrefuses hblocked hsibling)
  | overflow hrefuses hblocked sibling hsibling hbig hroom hnew failed => cases hstep
  | repeated hrefuses hblocked sibling hsibling hbig hroom hndebug hfound =>
    exact absurd ((rootThrows_twoLevel _ _).mpr (Or.inr ⟨hndebug, hroom, hfound⟩))
      (hfits hrefuses hblocked hsibling)
  | absorbed hrefuses hblocked sibling hsibling hbig hspace position hpos hlinked =>
    cases hstep
    have hnot := fun hmap => hrefuses (hrefused.mpr hmap)
    obtain ⟨root', leaves', htree, hplaced, hlookup⟩ := hreturned _ hnot rfl
    refine ⟨_, root', leaves', htree, hplaced, ?_⟩
    rw [hlookup, decide_eq_false hnot]

/-- A tree that the map describes stores the entries that were placed and a new one. -/
theorem Placed.stores_of_lookup_eq {root' : InternalNode} (h : Placed entries root leaves)
    (hleads : LeadsTo search root leaves entry.1 separator index leaf)
    (hrefused : ¬ RefusedBy (lookup search (twoLevel nulls root leaves)) entry)
    (hlinked : Linked root' (settled leaves index leaf entry.1 entry.2))
    (hlookup : lookup search (twoLevel nulls root' (settled leaves index leaf entry.1 entry.2)) =
      mapAfter (lookup search (twoLevel nulls root leaves)) entry) :
    Stores search (entries ++ [entry]) (twoLevel nulls root' (settled leaves index leaf entry.1 entry.2)) := by
  have hcontents : ∀ e, (∃ other ∈ settled leaves index leaf entry.1 entry.2, e ∈ other.mChildren) ↔
      e ∈ entries ++ [entry] := h.contents_settled hleads.leaf_eq
  have hfinds : ∀ e ∈ entries ++ [entry],
      lookup search (twoLevel nulls root' (settled leaves index leaf entry.1 entry.2)) e.1 = some e.2 := by
    intro e he
    rw [hlookup, mapAfter, if_neg hrefused]
    rcases List.mem_append.mp he with he | he
    · have hold : lookup search (twoLevel nulls root leaves) e.1 = some e.2 :=
        (h.lookup_eq_some_iff search nulls).mpr he
      have hne : e.1 ≠ entry.1 := by
        intro hsame
        exact hrefused (Or.inl (by rw [← hsame, hold]; rfl))
      rw [Function.update_of_ne hne, hold]
    · rw [List.mem_singleton.mp he, Function.update_self]
  constructor
  · intro e he
    obtain ⟨_, _, leaf', hleads'⟩ := hlinked.exists_leadsTo search e.1
    have hsorted := (hlinked.counted leaf' (List.mem_of_getElem? hleads'.leaf_eq)).sorted
    exact ⟨leaf', hleads'.leafFor_eq,
      hsorted.filter_key_eq ((hleads'.lookup_eq_some_iff hlinked).mp (hfinds e he))⟩
  · intro place other _ hother e he
    exact List.mem_map_of_mem ((hcontents e).mp ⟨other, List.mem_of_getElem? hother, he⟩)

/-- Any other entry makes the call throw at what the map takes, or loses its key. -/
theorem Placed.step_lost (h : Placed entries root leaves)
    (hinseparable : ¬ Separable search ndebug (twoLevel nulls root leaves) entry)
    (hstep : insertAnswered search ndebug (twoLevel nulls root leaves, threw) entry = some state') :
    (lookup search state'.1, state'.2) ≠
      mapAnswered (lookup search (twoLevel nulls root leaves), threw) entry := by
  obtain ⟨separator, index, leaf, hleads⟩ := h.linked.exists_leadsTo search entry.1
  have hrefused := hleads.refuses_iff h.linked nulls entry.2
  have houtcome := hleads.outcome h.linked nulls ndebug entry.2
  have hoffered := hleads.offered_eq nulls ndebug entry.2
  have hthrew : ¬ leaf.Refuses entry.1 entry.2 → threw ++ [true] ≠
      (mapAnswered (lookup search (twoLevel nulls root leaves), threw) entry).2 := by
    intro hrefuses
    rw [mapAnswered, decide_eq_false fun hmap => hrefuses (hrefused.mpr hmap)]
    exact fun heq => absurd (List.append_cancel_left heq) (by decide)
  unfold insertAnswered at hstep
  dsimp only at hstep
  generalize (Tree.insert search ndebug entry.1 entry.2).exec (twoLevel nulls root leaves) = result
    at hstep houtcome
  cases houtcome with
  | refused hrefuses what =>
    refine absurd ⟨?_, ?_⟩ hinseparable
    · intro other hother hfull
      rw [hleads.leafFor_eq] at hother
      obtain rfl := Option.some.inj hother
      exact absurd hrefuses hfull.1
    · rw [hoffered, if_pos (Or.inl hrefuses)]
      exact fun _ hnone => absurd hnone (by simp)
  | blocked hblocked failed => cases hstep
  | settled hrefuses hblocked hsibling =>
    refine absurd ⟨?_, ?_⟩ hinseparable
    · intro other hother hfull
      rw [hleads.leafFor_eq] at hother
      obtain rfl := Option.some.inj hother
      rw [pending, if_pos hfull] at hsibling
      cases hsibling
    · rw [hoffered, hsibling, if_neg (not_or.mpr ⟨hrefuses, hblocked⟩)]
      exact fun _ hnone => absurd hnone (by simp)
  | tooBig hrefuses hblocked sibling hsibling hbig =>
    cases hstep
    exact fun heq => hthrew hrefuses (congrArg Prod.snd heq)
  | overflow hrefuses hblocked sibling hsibling hbig hroom hnew failed => cases hstep
  | repeated hrefuses hblocked sibling hsibling hbig hroom hndebug hfound =>
    cases hstep
    exact fun heq => hthrew hrefuses (congrArg Prod.snd heq)
  | absorbed hrefuses hblocked sibling hsibling hbig hspace position hpos hlinked =>
    cases hstep
    have hbelow : ¬ AboveCut search (twoLevel nulls root leaves) entry := by
      intro habove
      refine hinseparable ⟨habove, ?_⟩
      rw [hoffered, hsibling, if_neg (not_or.mpr ⟨hrefuses, hblocked⟩)]
      intro offered hsome
      cases hsome
      rw [rootThrows_twoLevel]
      rintro (hover | ⟨_, hroom, _⟩)
      · exact hbig hover
      · exact hspace hroom
    unfold AboveCut at hbelow
    push Not at hbelow
    obtain ⟨other, hother, hfull, hle⟩ := hbelow
    rw [hleads.leafFor_eq] at hother
    obtain rfl := Option.some.inj hother
    have hkey : (pending leaves leaf entry.1 entry.2).key = leaf.splitKey := by
      rw [pending, if_pos hfull]
      rfl
    rw [hkey] at hlinked ⊢
    intro heq
    exact h.not_stores_of_below hleads hfull hle hlinked (fun e => List.mem_insertIdx hpos)
      (h.stores_of_lookup_eq hleads (fun hmap => hrefuses (hrefused.mpr hmap)) hlinked
        (congrArg Prod.fst heq))

end Step

/-- The invariant of separable entries: all entries that were taken are placed, and the tree
answers as the map of what was offered. -/
def AnswersAs (search : ChildSearch) (offered : List (Bytes × Bytes)) (state : Tree × List Bool) : Prop :=
  (∃ placed root leaves, state.1 = twoLevel 0 root leaves ∧ Placed placed root leaves) ∧
    Answers search offered state

theorem AnswersAs.construct (search : ChildSearch) : AnswersAs search [] (construct, []) := by
  refine ⟨⟨[], _, _, rfl, Placed.construct⟩, ?_⟩
  have hnothing : lookup search Tree.construct = fun _ => none := by
    refine funext fun key => Option.eq_none_iff_forall_ne_some.mpr fun value hfound => ?_
    cases (Placed.construct.lookup_eq_some_iff search 0).mp hfound
  exact congrArg (·, []) hnothing

/-- In a run of inserts whose exceptions are caught, with keys that come again and entries
that are too big among them, the tree answers as the map of the entries offered so far exactly
as long as each entry that finds its leaf full is above the key at the cut and the root throws
at no separator. -/
theorem answers_iff_separable (search : ChildSearch) (ndebug : Bool) (entries : List (Bytes × Bytes)) :
    run.Always (insertAnswered search ndebug) (construct, []) (Answers search) entries ↔
      run.EachStep (insertAnswered search ndebug) (construct, [])
        (fun state => Separable search ndebug state.1) entries := by
  apply run.always_iff_eachStep (fun _ => True) (AnswersAs search) (AnswersAs.construct search)
  · exact fun _ _ _ _ => trivial
  · exact fun done state h => h.2
  · rintro done entry ⟨tree, threw⟩ state' _ ⟨⟨placed, root, leaves, htree, h⟩, hanswers⟩ hseparable hstep
    obtain rfl : tree = twoLevel 0 root leaves := htree
    obtain ⟨placed', root', leaves', htree', h', hanswered⟩ := h.step_answered hseparable hstep
    refine ⟨⟨placed', root', leaves', htree', h'⟩, ?_⟩
    rw [Answers, List.foldl_concat, ← hanswers]
    exact hanswered
  · rintro done entry ⟨tree, threw⟩ state' _ ⟨⟨placed, root, leaves, htree, h⟩, hanswers⟩ hinseparable hstep
    obtain rfl : tree = twoLevel 0 root leaves := htree
    rw [Answers, List.foldl_concat, ← hanswers]
    exact h.step_lost hinseparable hstep
  · trivial

end tupl.pvt.slow.Tree
