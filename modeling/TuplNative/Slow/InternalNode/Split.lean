import TuplNative.Slow.InternalNode.Insert
import TuplNative.Slow.Node.Halves

namespace tupl.pvt.slow.InternalNode

/-- The representation of an internal node: the first key is the empty one, no other
key is, and the other keys strictly increase. -/
structure SentinelFirst (node : InternalNode) : Prop where
  first : node.mChildren.head?.map Prod.fst = some .empty
  only : ∀ e ∈ node.mChildren.tail, e.1 ≠ .empty
  sorted : Sorted node.mChildren.tail

/-- The keys without the sentinel's. -/
def ownKeys (node : InternalNode) : List Bytes :=
  (node.mChildren.map Prod.fst).filter fun k => decide (k ≠ .empty)

/-- Two nodes that an internal node was split into: both are represented with a
sentinel, the split key lies between their keys, and no key and no child is lost. -/
structure SplitInTwo (original : InternalNode) (key : Bytes) (child : NodePtr)
    (nodes : InternalNode × InternalNode) : Prop where
  lower : SentinelFirst (lowerNode nodes)
  upper : SentinelFirst (upperNode nodes)
  keys : ownKeys (lowerNode nodes) ++ [nodes.1.mSplit.key] ++ ownKeys (upperNode nodes) =
    (ownKeys original).orderedInsert (· ≤ ·) key
  children : ((lowerNode nodes).mChildren ++ (upperNode nodes).mChildren).map Prod.snd =
    (sortedInsert key child original.mChildren).map Prod.snd

variable {node : InternalNode} {leftest child : NodePtr} {rest : List (Buffer × NodePtr)} {key : Bytes}

theorem empty_lt_iff (k : Bytes) : Bytes.empty < k ↔ k ≠ .empty :=
  ⟨fun hlt => hlt.ne', fun hne => lt_of_le_of_ne (Bytes.empty_le k) hne.symm⟩

theorem sentinelFirst_iff :
    SentinelFirst node ↔ ∃ leftest rest, node.mChildren = (.empty, leftest) :: rest ∧
      Sorted ((.empty, leftest) :: rest) := by
  constructor
  · intro h
    cases hchildren : node.mChildren with
    | nil =>
      have hfirst := h.first
      rw [hchildren] at hfirst
      cases hfirst
    | cons e rest =>
      obtain ⟨k, leftest⟩ := e
      have hfirst := h.first
      have honly := h.only
      have hsorted := h.sorted
      rw [hchildren] at hfirst honly hsorted
      obtain rfl : k = .empty := Option.some.inj hfirst
      exact ⟨leftest, rest, rfl,
        List.pairwise_cons.mpr ⟨fun e he => (empty_lt_iff _).mpr (honly e he), hsorted⟩⟩
  · rintro ⟨leftest, rest, hchildren, hsorted⟩
    obtain ⟨honly, hrest⟩ := List.pairwise_cons.mp hsorted
    refine ⟨by rw [hchildren]; rfl, ?_, by rwa [hchildren]⟩
    rw [hchildren]
    exact fun e he => (empty_lt_iff _).mp (honly e he)

/-- Behind the sentinel, all keys are own keys. -/
theorem ownKeys_eq (hchildren : node.mChildren = (.empty, leftest) :: rest)
    (hsorted : Sorted ((.empty, leftest) :: rest)) : ownKeys node = rest.map Prod.fst := by
  have hown : ∀ k ∈ rest.map Prod.fst, decide (k ≠ Bytes.empty) = true := by
    intro k hk
    obtain ⟨e, he, rfl⟩ := List.mem_map.mp hk
    exact decide_eq_true ((empty_lt_iff _).mp ((List.pairwise_cons.mp hsorted).1 e he))
  rw [ownKeys, hchildren, List.map_cons, List.filter_cons_of_neg (by simp), List.filter_eq_self.mpr hown]

/-- Any sentinel may stand before a part of the entries behind one. -/
theorem sorted_sentinel {part : List (Buffer × NodePtr)} (hsorted : Sorted ((.empty, leftest) :: rest))
    (hsub : part.Sublist rest) (child : NodePtr) :
    Sorted ((.empty, child) :: part) := by
  obtain ⟨honly, hrest⟩ := List.pairwise_cons.mp hsorted
  exact List.pairwise_cons.mpr ⟨fun e he => honly e (hsub.subset he), Sorted.of_sublist hrest hsub⟩

/-- A new key has its place behind the sentinel. -/
theorem sorted_sentinel_sortedInsert {part : List (Buffer × NodePtr)}
    (hsorted : Sorted ((.empty, leftest) :: rest)) (hsub : part.Sublist rest) (hkey : key ≠ .empty)
    (habsent : key ∉ rest.map Prod.fst) (sentinelChild child : NodePtr) :
    Sorted ((.empty, sentinelChild) :: sortedInsert key child part) := by
  have hpart := sorted_sentinel hsorted hsub sentinelChild
  rw [← sortedInsert_cons_of_lt ((empty_lt_iff key).mpr hkey)]
  refine hpart.sortedInsert fun hmem => ?_
  cases List.mem_cons.mp hmem with
  | inl heq => exact hkey heq
  | inr hmem => exact habsent ((hsub.map Prod.fst).subset hmem)

/-- The cut of a node that can be split is behind its sentinel. -/
theorem SentinelFirst.exists_cut (h : SentinelFirst node) (hsize : 3 ≤ node.mChildren.length) :
    ∃ leftest low middle up, node.Cut ((.empty, leftest) :: low) middle up ∧
      Sorted ((.empty, leftest) :: (low ++ middle :: up)) := by
  obtain ⟨leftest, rest, hchildren, hsorted⟩ := sentinelFirst_iff.mp h
  obtain ⟨low, middle, up, hcut⟩ := Node.exists_cut hsize
  cases low with
  | nil =>
    have hlength := hcut.length
    unfold Node.splitBegin at hlength
    rw [List.length_nil] at hlength
    omega
  | cons first low =>
    obtain ⟨rfl, rfl⟩ := List.cons.inj (hchildren.symm.trans hcut.children)
    exact ⟨leftest, low, middle, up, hcut, hsorted⟩

theorem map_fst_sortedInsert (key : Bytes) (child : NodePtr) (entries : List (Buffer × NodePtr)) :
    (sortedInsert key child entries).map Prod.fst = (entries.map Prod.fst).orderedInsert (· ≤ ·) key :=
  List.map_orderedInsert _ _ Prod.fst entries (key, child) (fun _ _ => Iff.rfl) fun _ _ => Iff.rfl

variable {original siblingNode : InternalNode} {nodes : InternalNode × InternalNode} {sibling : NodePtr}
  {ndebug : Bool}

/-- Two nodes with a sentinel each, whose keys make up those of the original and the
new one together with the split key. -/
theorem SplitInTwo.of_children {lowest highest : NodePtr} {low up : List (Buffer × NodePtr)}
    (hlower : (lowerNode nodes).mChildren = (.empty, lowest) :: low)
    (hlowerSorted : Sorted ((.empty, lowest) :: low))
    (hupper : (upperNode nodes).mChildren = (.empty, highest) :: up)
    (hupperSorted : Sorted ((.empty, highest) :: up))
    (hkeys : low.map Prod.fst ++ [nodes.1.mSplit.key] ++ up.map Prod.fst =
      (ownKeys original).orderedInsert (· ≤ ·) key)
    (hpointers : ((lowerNode nodes).mChildren ++ (upperNode nodes).mChildren).map Prod.snd =
      (sortedInsert key child original.mChildren).map Prod.snd) :
    SplitInTwo original key child nodes := by
  refine ⟨sentinelFirst_iff.mpr ⟨_, _, hlower, hlowerSorted⟩,
    sentinelFirst_iff.mpr ⟨_, _, hupper, hupperSorted⟩, ?_, hpointers⟩
  rw [ownKeys_eq hlower hlowerSorted, ownKeys_eq hupper hupperSorted]
  exact hkeys

/-- A split of an internal node into a sibling without entries keeps the
representation exactly when the new key does not fall directly below the entry at
the cut. There the new entry goes in front of the entry that has become a sentinel. -/
theorem splitInTwo_iff (hsentinel : SentinelFirst original) (hkey : key ≠ .empty)
    (hempty : siblingNode.mChildren = [])
    (hexec : (InternalNode.splitAndInsert ndebug sibling key child).exec (original, siblingNode) =
      (.ok (), nodes)) :
    SplitInTwo original key child nodes ↔
      original.smallerKeys key ≠ (original.mChildren.length + 1) / 2 := by
  obtain ⟨_, hneeded, hdup, hnodes⟩ := Ops.splitAndInsert_returned hexec
  obtain ⟨leftest, low, middle, up, hcut, hsorted⟩ :=
    hsentinel.exists_cut (Node.three_le_length_of_needed hneeded)
  have hall : Sorted original.mChildren := by
    rw [hcut.children]
    exact hsorted
  have hplaced : (original.mChildren.length + 1) / 2 = original.splitBegin := rfl
  have hsplitKey : nodes.1.mSplit.key = middle.1 := by
    rw [hnodes]
    exact hcut.splitKey
  have hpointers := hcut.map_halves hall hempty hnodes Prod.snd rfl
  have habsent : key ∉ (low ++ middle :: up).map Prod.fst := by
    intro hmem
    apply hdup
    rw [Node.keyEqualsAt_insertIt_iff hall, hcut.children]
    exact List.mem_cons_of_mem _ hmem
  have hownKeys : ownKeys original = (low ++ middle :: up).map Prod.fst :=
    ownKeys_eq hcut.children hsorted
  have hlowSub : low.Sublist (low ++ middle :: up) := List.sublist_append_left _ _
  have hupSub : up.Sublist (low ++ middle :: up) :=
    (List.sublist_cons_self _ _).trans (List.sublist_append_right _ _)
  rw [hplaced, ← original.insertIt_eq hall]
  rcases hcut.halves_cases hall hempty hnodes with
    ⟨hplace, hlower, hupper⟩ | ⟨hplace, hlower, hupper⟩ | ⟨hplace, hlower, hupper⟩
  · have hlt : key < middle.1 := hcut.lt_of_insertIt_lt hall hplace
    have habove : ∀ e ∈ middle :: up, key ≤ e.1 :=
      fun e he => hlt.le.trans ((hcut.separates hall).2 e he)
    have hlowerSorted := sorted_sentinel_sortedInsert hsorted hlowSub hkey habsent leftest child
    have hupperSorted := sorted_sentinel hsorted hupSub middle.2
    rw [sortedInsert_cons_of_lt ((empty_lt_iff key).mpr hkey)] at hlower
    refine iff_of_true ?_ hplace.ne
    apply SplitInTwo.of_children hlower hlowerSorted hupper hupperSorted ?_ hpointers
    rw [hsplitKey, hownKeys, ← map_fst_sortedInsert key child, sortedInsert_append_left habove]
    simp only [List.map_append, List.map_cons, List.append_assoc, List.cons_append, List.nil_append]
  · refine iff_of_false ?_ (not_not.mpr hplace)
    intro h
    have hfirst := h.upper.first
    rw [hupper] at hfirst
    exact hkey (Option.some.inj hfirst)
  · have hlt : middle.1 < key := (hcut.lt_insertIt_iff hall).mp hplace
    have hbelow : ∀ e ∈ low, e.1 < key :=
      fun e he => ((hcut.separates hall).1 e (List.mem_cons_of_mem _ he)).trans hlt
    have hlowerSorted := sorted_sentinel hsorted hlowSub leftest
    have hupperSorted := sorted_sentinel_sortedInsert hsorted hupSub hkey habsent middle.2 child
    refine iff_of_true ?_ hplace.ne'
    apply SplitInTwo.of_children hlower hlowerSorted hupper hupperSorted ?_ hpointers
    rw [hsplitKey, hownKeys, ← map_fst_sortedInsert key child, sortedInsert_append_right hbelow,
      sortedInsert_cons_of_lt hlt]
    simp only [List.map_append, List.map_cons, List.append_assoc, List.cons_append, List.nil_append]

/-- A full node with a key left free in the middle. -/
def gapNode : InternalNode :=
  ⟨4040, ⟨none, .left, .empty⟩, (.empty, .leaf 0) ::
    [(10, 1), (20, 2), (40, 3), (50, 4)].map fun (b, index) => (Bytes.repeated 1000 b, .leaf index)⟩

/-- The split of the full node for one more key, into a sibling without entries. -/
def splitGapNode (key : byte) : Except Failure Unit × InternalNode × InternalNode :=
  (InternalNode.splitAndInsert false (.internal 1) (.repeated 1000 key) (.leaf 5)).exec
    (gapNode, Node.construct)

theorem gapNode_sentinelFirst : SentinelFirst gapNode := by
  refine ⟨rfl, by decide +kernel, ?_⟩
  unfold Sorted
  decide +kernel

theorem splitInTwo_aboveGap :
    SplitInTwo gapNode (.fill 1000 45 (by decide)) (.leaf 5) (splitGapNode 45).2 := by
  have hkey : Bytes.fill 1000 45 (by decide) ≠ .empty := by decide +kernel
  have hempty : (Node.construct : InternalNode).mChildren = [] := rfl
  have hok : (splitGapNode 45).1 = .ok () := by decide +kernel
  have hreturned : splitGapNode 45 = (.ok (), (splitGapNode 45).2) := by
    rw [← hok]
  exact (splitInTwo_iff gapNode_sentinelFirst hkey hempty hreturned).mpr (by decide +kernel)

theorem not_splitInTwo_inGap :
    SentinelFirst gapNode ∧ Bytes.fill 1000 30 (by decide) ∉ ownKeys gapNode ∧
      (splitGapNode 30).1 = .ok () ∧
      ¬ SplitInTwo gapNode (.fill 1000 30 (by decide)) (.leaf 5) (splitGapNode 30).2 := by
  refine ⟨gapNode_sentinelFirst, by decide +kernel, by decide +kernel, fun h => ?_⟩
  have hfirst : ((upperNode (splitGapNode 30).2).mChildren.head?.map Prod.fst) ≠ some .empty := by
    decide +kernel
  exact hfirst h.upper.first

end tupl.pvt.slow.InternalNode
