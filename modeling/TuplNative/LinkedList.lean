import Mathlib.Data.List.Basic
import Mathlib.Logic.Function.Basic

/-- A list without duplicates holds a node nowhere before or after its place. -/
theorem notMem_of_nodup_middle {ν : Type} {lower upper : List ν} {a : ν}
    (h : (lower ++ a :: upper).Nodup) :
    a ∉ lower ∧ a ∉ upper := by
  rw [← not_or, ← List.mem_append]
  exact (List.nodup_cons.mp (List.perm_middle.nodup_iff.mp h)).1

/-- Nodes in a row, linked both ways. `before` precedes the first of them and
`after` follows the last. -/
def Segment {ν : Type} (next prev : ν → Option ν) : Option ν → List ν → Option ν → Prop
  | _, [], _ => True
  | before, a :: rest, after =>
    prev a = before ∧ next a = rest.head?.or after ∧ Segment next prev (some a) rest after

/-- The nodes that following the links visits until there is no next one. -/
inductive Follows {ν : Type} (next : ν → Option ν) : Option ν → List ν → Prop where
  | nil : Follows next none []
  | cons (a : ν) {rest : List ν} (h : Follows next (next a) rest) : Follows next (some a) (a :: rest)

/-- There is only one list of nodes to visit. -/
theorem Follows.unique {ν : Type} {next : ν → Option ν} {start : Option ν} {nodes nodes' : List ν}
    (h : Follows next start nodes) (h' : Follows next start nodes') : nodes = nodes' := by
  induction h generalizing nodes' with
  | nil =>
    cases h'
    rfl
  | cons a h ih =>
    cases h' with
    | cons _ h' => rw [ih h']

namespace Segment

variable {ν : Type} {next prev : ν → Option ν} {before after : Option ν} {nodes lower upper : List ν}

theorem append_iff : Segment next prev before (lower ++ upper) after ↔
    Segment next prev before lower (upper.head?.or after) ∧
      Segment next prev (lower.getLast?.or before) upper after := by
  induction lower generalizing before with
  | nil => simp [Segment]
  | cons a lower ih =>
    have hlast : (a :: lower).getLast?.or before = lower.getLast?.or (some a) := by
      cases lower with
      | nil => rfl
      | cons b lower =>
        rw [List.getLast?_cons_cons]
        cases hlast : (b :: lower).getLast? with
        | none => simp at hlast
        | some last => rfl
    rw [List.cons_append, Segment, Segment, ih, hlast]
    cases lower with
    | nil => simp only [List.nil_append, List.head?_nil, Option.none_or, and_assoc]
    | cons b lower => simp only [List.cons_append, List.head?_cons, Option.some_or, and_assoc]

/-- A segment that ends in a null link is what following the links visits. -/
theorem follows (h : Segment next prev before nodes none) : Follows next nodes.head? nodes := by
  induction nodes generalizing before with
  | nil => exact .nil
  | cons a rest ih =>
    obtain ⟨_, hnext, hrest⟩ := h
    apply Follows.cons
    rw [hnext, Option.or_none]
    exact ih hrest

/-- The node that follows another one is preceded by it. -/
theorem prev_of_next (h : Segment next prev before nodes none) {a b : ν} (ha : a ∈ nodes)
    (hnext : next a = some b) : prev b = some a := by
  induction nodes generalizing before with
  | nil => cases ha
  | cons first rest ih =>
    obtain ⟨_, hfirst, hrest⟩ := h
    rcases List.mem_cons.mp ha with rfl | ha
    · rw [hfirst, Option.or_none] at hnext
      cases rest with
      | nil => cases hnext
      | cons second rest =>
        obtain rfl := Option.some.inj hnext
        exact hrest.1
    · exact ih hrest ha

/-- The node that precedes another one is followed by it. -/
theorem next_of_prev (h : Segment next prev before nodes none) {a b : ν}
    (hbefore : before = some a → next a = nodes.head?) (hb : b ∈ nodes) (hprev : prev b = some a) :
    next a = some b := by
  induction nodes generalizing before with
  | nil => cases hb
  | cons first rest ih =>
    obtain ⟨hfirst, hnext, hrest⟩ := h
    rcases List.mem_cons.mp hb with rfl | hb
    · exact hbefore (hfirst.symm.trans hprev)
    · apply ih hrest _ hb
      intro heq
      obtain rfl := Option.some.inj heq
      rw [hnext, Option.or_none]

/-- The nodes of a segment have the same links wherever it is laid out. -/
theorem links_unique {next' prev' : ν → Option ν} (h : Segment next prev before nodes after)
    (h' : Segment next' prev' before nodes after) {a : ν} (ha : a ∈ nodes) :
    next a = next' a ∧ prev a = prev' a := by
  induction nodes generalizing before with
  | nil => cases ha
  | cons first rest ih =>
    obtain ⟨hprev, hnext, hrest⟩ := h
    obtain ⟨hprev', hnext', hrest'⟩ := h'
    rcases List.mem_cons.mp ha with rfl | ha
    · exact ⟨hnext.trans hnext'.symm, hprev.trans hprev'.symm⟩
    · exact ih hrest hrest' ha

section Update

variable [DecidableEq ν]

/-- Writing to the links of other nodes leaves a segment alone. -/
theorem update_next (h : Segment next prev before nodes after) {a : ν} (hout : a ∉ nodes)
    (link : Option ν) :
    Segment (Function.update next a link) prev before nodes after := by
  induction nodes generalizing before with
  | nil => trivial
  | cons b rest ih =>
    obtain ⟨hprev, hnext, hrest⟩ := h
    rw [List.mem_cons, not_or] at hout
    refine ⟨hprev, ?_, ih hrest hout.2⟩
    rw [Function.update_of_ne (Ne.symm hout.1), hnext]

theorem update_prev (h : Segment next prev before nodes after) {a : ν} (hout : a ∉ nodes)
    (link : Option ν) :
    Segment next (Function.update prev a link) before nodes after := by
  induction nodes generalizing before with
  | nil => trivial
  | cons b rest ih =>
    obtain ⟨hprev, hnext, hrest⟩ := h
    rw [List.mem_cons, not_or] at hout
    refine ⟨?_, hnext, ih hrest hout.2⟩
    rw [Function.update_of_ne (Ne.symm hout.1), hprev]

/-- Writing to the backward link of the first node puts another node before it. -/
theorem update_first {a : ν} {rest : List ν} (h : Segment next prev before (a :: rest) after)
    (hout : a ∉ rest) (link : Option ν) :
    Segment next (Function.update prev a link) link (a :: rest) after := by
  obtain ⟨_, hnext, hrest⟩ := h
  exact ⟨Function.update_self _ _ _, hnext, hrest.update_prev hout link⟩

/-- Writing to the forward link of the last node puts another node behind it. -/
theorem update_last {a : ν} {lower : List ν} (h : Segment next prev before (lower ++ [a]) after)
    (hout : a ∉ lower) (link : Option ν) :
    Segment (Function.update next a link) prev before (lower ++ [a]) link := by
  obtain ⟨hlower, hprev, _, _⟩ := append_iff.mp h
  refine append_iff.mpr ⟨hlower.update_next hout link, hprev, ?_, trivial⟩
  rw [Function.update_self, List.head?_nil, Option.none_or]

/-- A node without a next one is linked behind the last node. -/
theorem concat {last node : ν} (h : Segment next prev before (lower ++ [last]) none)
    (hlast : last ∉ lower) (hout : node ∉ lower ++ [last]) (hnode : next node = none) :
    Segment (Function.update next last (some node)) (Function.update prev node (some last)) before
      (lower ++ [last] ++ [node]) none := by
  have hne : node ≠ last := by
    rintro rfl
    exact hout (List.mem_append_right _ List.mem_cons_self)
  refine append_iff.mpr ⟨?_, ?_, ?_, trivial⟩
  · exact (h.update_last hlast (some node)).update_prev hout (some last)
  · rw [Function.update_self, List.getLast?_concat, Option.some_or]
  · rw [Function.update_of_ne hne]
    exact hnode

/-- A node with a next one is unlinked by linking its neighbours to each other. -/
theorem unlink {node nextNode : ν} {rest : List ν}
    (h : Segment next prev none (lower ++ node :: nextNode :: rest) none)
    (hnodup : (lower ++ node :: nextNode :: rest).Nodup) :
    Segment (lower.getLast?.elim next fun prevNode => Function.update next prevNode (some nextNode))
      (Function.update prev nextNode lower.getLast?) none (lower ++ nextNode :: rest) none := by
  obtain ⟨hlower, _, _, hupper⟩ := append_iff.mp h
  obtain ⟨hlownodup, hrestnodup, hcross⟩ := List.nodup_append.mp hnodup
  have hnext : nextNode ∉ rest := (List.nodup_cons.mp (List.nodup_cons.mp hrestnodup).2).1
  have hnotlow : nextNode ∉ lower := fun hmem =>
    hcross nextNode hmem nextNode (List.mem_cons_of_mem _ List.mem_cons_self) rfl
  rcases List.eq_nil_or_concat' lower with rfl | ⟨lower, prevNode, rfl⟩
  · exact hupper.update_first hnext none
  · have hprev : prevNode ∉ lower := (notMem_of_nodup_middle hlownodup).1
    have hnotrest : prevNode ∉ nextNode :: rest := fun hmem =>
      hcross prevNode (List.mem_append_right _ List.mem_cons_self) prevNode (List.mem_cons_of_mem _ hmem) rfl
    rw [List.getLast?_concat, Option.elim_some]
    refine append_iff.mpr ⟨(hlower.update_last hprev _).update_prev hnotlow _, ?_⟩
    rw [List.getLast?_concat, Option.some_or]
    exact (hupper.update_first hnext _).update_next hnotrest _

end Update

end Segment
