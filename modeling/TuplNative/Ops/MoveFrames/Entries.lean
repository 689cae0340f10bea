import TuplNative.Ops.MoveFrames.Rounds
import TuplNative.Slow.LeafNode.Split

namespace tupl.pvt.ops

variable {Node Frame : Type} [DecidableEq Node] [DecidableEq Frame]

section Rounds

variable {ndebug : Bool} {source : Node} {insertPos splitPos : UInt64} {state after after' : Frames Node Frame}

/-- More rounds do nothing once the loop has ended. -/
theorem moveFramesFrom_ended {rounds : Nat} {srcIt : Option Frame}
    (hexec : (moveFramesFrom ndebug source insertPos splitPos rounds srcIt).exec state = (.ok none, after))
    (more : Nat) :
    (moveFramesFrom ndebug source insertPos splitPos (rounds + more) srcIt).exec state = (.ok none, after) := by
  induction rounds generalizing state srcIt with
  | zero =>
    cases hexec
    rw [Nat.zero_add]
    cases more <;> rfl
  | succ rounds ih =>
    rw [Nat.add_right_comm]
    cases srcIt with
    | none =>
      cases hexec
      rfl
    | some thisIt =>
      rw [moveFramesFrom, Call.exec_bind_eq_ok] at hexec ⊢
      obtain ⟨next, between, hround, hrounds⟩ := hexec
      exact ⟨next, between, hround, ih hrounds⟩

/-- The loop can only end in one state. -/
theorem moveFramesFrom_unique {rounds rounds' : Nat} {srcIt : Option Frame}
    (hexec : (moveFramesFrom ndebug source insertPos splitPos rounds srcIt).exec state = (.ok none, after))
    (hexec' : (moveFramesFrom ndebug source insertPos splitPos rounds' srcIt).exec state = (.ok none, after')) :
    after = after' := by
  have hmore := moveFramesFrom_ended hexec rounds'
  rw [Nat.add_comm, moveFramesFrom_ended hexec' rounds] at hmore
  exact (Prod.mk.inj hmore).2.symm

/-- Two frames before an insert position that is the split position are spliced in turn
for ever. -/
theorem Between.endless {before rest : List Frame} (h : Between state source before rest)
    (hseveral : 2 ≤ rest.length) (hbefore : ∀ frame ∈ rest, state.position frame < splitPos) (rounds : Nat) :
    (moveFramesFrom ndebug source splitPos splitPos rounds rest.head?).exec state ≠ (.ok none, after) := by
  induction rounds generalizing state before rest with
  | zero =>
    intro hexec
    have hnone : rest.head? = none := Except.ok.inj (Prod.mk.inj hexec).1
    rw [List.head?_eq_none_iff] at hnone
    subst hnone
    simp at hseveral
  | succ rounds ih =>
    cases rest with
    | nil => simp at hseveral
    | cons frame later =>
      have hlt := hbefore frame List.mem_cons_self
      have hspliced : Spliced splitPos splitPos (state.position frame) := Or.inr ⟨hlt, UInt64.le_refl _⟩
      have hlater : later ≠ [] := by
        rintro rfl
        simp at hseveral
      have hnext : (later ++ [frame]).head? = later.head? := List.head?_append_of_ne_nil _ hlater
      rw [h.exec_round (UInt64.ne_of_lt hlt), ← hnext]
      apply ih (h.splice hspliced)
      · rw [List.length_append, List.length_singleton]
        rw [List.length_cons] at hseveral
        exact hseveral
      · intro other hother
        rw [Frames.afterRound_position_of_lt hlt]
        apply hbefore
        rcases List.mem_append.mp hother with hother | hother
        · exact List.mem_cons_of_mem _ hother
        · rw [List.mem_singleton.mp hother]
          exact List.mem_cons_self

end Rounds

/-- Each frame that was on an entry of the source is in the list of the node that holds the
entry now, at its position there. No frame is lost or doubled, and those that stay in a
list keep their order. -/
structure FollowEntries (source sibling : Node) (original original' sibling' : slow.LeafNode)
    (before after : Frames Node Frame) : Prop where
  entry : ∀ frame ∈ before.visitorFrames source,
    frame ∈ after.visitorFrames source ∧
        original'.mChildren[(after.position frame).toNat]? =
          original.mChildren[(before.position frame).toNat]? ∨
      frame ∈ after.visitorFrames sibling ∧
        sibling'.mChildren[(after.position frame).toNat]? =
          original.mChildren[(before.position frame).toNat]?
  conserved : (after.visitorFrames source ++ after.visitorFrames sibling).Perm
    (before.visitorFrames source ++ before.visitorFrames sibling)
  sourceOrder : (after.visitorFrames source).Sublist (before.visitorFrames source)
  siblingOrder : (before.visitorFrames sibling).Sublist (after.visitorFrames sibling)

/-- No frame visits the source; or the new entry goes behind the split and all frames are
before it; or it goes to the split and the only frame is before it. -/
def StayInPlace (source : Node) (insertPos splitPos : UInt64) (frames : Frames Node Frame) : Prop :=
  frames.visitorFrames source = [] ∨
    splitPos < insertPos ∧ (∀ frame ∈ frames.visitorFrames source, frames.position frame < splitPos) ∨
    splitPos = insertPos ∧ ∃ frame, frames.visitorFrames source = [frame] ∧ frames.position frame < splitPos

/-- The frames that visit the original before the split, each on an entry other than the
one at the insert position. A frame has one hook, so it is in no other list. -/
structure Visiting (source sibling : Node) (original : slow.LeafNode) (insertPos : UInt64)
    (frames : Frames Node Frame) : Prop where
  nodup : (frames.visitorFrames source).Nodup
  onlyHere : ∀ frame ∈ frames.visitorFrames source, frame ∉ frames.visitorFrames sibling
  within : ∀ frame ∈ frames.visitorFrames source,
    (frames.position frame).toNat < original.mChildren.length
  elsewhere : ∀ frame ∈ frames.visitorFrames source, frames.position frame ≠ insertPos

omit [DecidableEq Node] [DecidableEq Frame] in
theorem Visiting.between {source sibling : Node} {original : slow.LeafNode} {insertPos : UInt64}
    {frames : Frames Node Frame} (h : Visiting source sibling original insertPos frames) :
    Between frames source [] (frames.visitorFrames source) :=
  ⟨rfl, h.nodup⟩

/-- Frames that are not spliced all get their new positions, and the loop ends. -/
theorem Visiting.exec_moveFrames {source sibling : Node} {original : slow.LeafNode}
    {insertPos splitPos : UInt64} {frames : Frames Node Frame}
    (h : Visiting source sibling original insertPos frames) (ndebug : Bool)
    (hstays : ∀ frame ∈ (frames.visitorFrames source).dropLast,
      ¬ Spliced insertPos splitPos (frames.position frame)) :
    (moveFrames ndebug source sibling insertPos splitPos (frames.visitorFrames source).length).exec frames =
      (.ok none, frames.handled insertPos splitPos (frames.visitorFrames source)) := by
  have hrounds : (moveFrames ndebug source sibling insertPos splitPos _).exec frames = _ :=
    h.between.exec_rounds h.elsewhere hstays (frames.visitorFrames source).length
  rwa [List.drop_length, List.take_length, List.head?_nil] at hrounds

/-- What a split that returned leaves in the original. -/
theorem kept_of_split {ndebug : Bool} {siblingPtr : slow.NodePtr} {key value : Bytes}
    {original original' fresh sibling' : slow.LeafNode}
    (hsplit : (slow.LeafNode.splitAndInsert ndebug siblingPtr key value).exec (original, fresh) =
      (.ok (), (original', sibling'))) :
    original'.mChildren = original.kept key := by
  obtain ⟨outcome, nodes, hexec, hends⟩ :=
    slow.Ops.splitAndInsert_outcome ndebug siblingPtr original fresh key value
  obtain ⟨rfl, rfl⟩ := Prod.mk.inj (hexec.symm.trans hsplit)
  cases hends
  rfl

omit [DecidableEq Node] [DecidableEq Frame] in
/-- Where the entries of a leaf differ, each of them is at one position only. -/
theorem eq_of_getElem? {original : slow.LeafNode} (hdistinct : original.mChildren.Nodup) {position other : Nat}
    (hwithin : position < original.mChildren.length)
    (hsame : original.mChildren[other]? = original.mChildren[position]?) : other = position :=
  ((List.getElem?_inj hwithin hdistinct).mp hsame.symm).symm

section Claim

variable {ndebug : Bool} {source sibling : Node} {insertPos splitPos : UInt64} {frames : Frames Node Frame}
  {original original' fresh sibling' : slow.LeafNode} {key : Bytes}

omit [DecidableEq Node] in
/-- Frames before the split and before the new entry keep their positions. -/
theorem handled_before (hbefore : ∀ frame ∈ frames.visitorFrames source, frames.position frame < splitPos)
    (hbehind : ∀ frame ∈ frames.visitorFrames source, frames.position frame < insertPos) :
    frames.handled insertPos splitPos (frames.visitorFrames source) = frames := by
  refine congrArg (Frames.mk frames.visitorFrames) (funext fun frame => ?_)
  by_cases hframe : frame ∈ frames.visitorFrames source
  · rw [if_pos hframe, adjusted, if_neg (UInt64.not_le.mpr (hbefore frame hframe)),
      if_pos (hbehind frame hframe)]
  · rw [if_neg hframe]

/-- Frames that are to stay are left alone, and the loop ends. -/
theorem followEntries_of_stays (hkept : original'.mChildren = original.kept key)
    (hinsertPos : insertPos.toNat = original.insertIt key) (hsplitPos : splitPos.toNat = original.splitBegin)
    (hvisiting : Visiting source sibling original insertPos frames)
    (hbefore : ∀ frame ∈ frames.visitorFrames source, frames.position frame < splitPos)
    (hright : ∀ frame ∈ frames.visitorFrames source, splitPos ≤ insertPos)
    (hstays : ∀ frame ∈ (frames.visitorFrames source).dropLast,
      ¬ Spliced insertPos splitPos (frames.position frame)) :
    ∃ rounds after, (moveFrames ndebug source sibling insertPos splitPos rounds).exec frames =
        (.ok none, after) ∧
      FollowEntries source sibling original original' sibling' frames after := by
  have hrounds := hvisiting.exec_moveFrames ndebug hstays
  rw [handled_before hbefore fun frame hframe =>
    UInt64.lt_of_lt_of_le (hbefore frame hframe) (hright frame hframe)] at hrounds
  refine ⟨_, frames, hrounds, ?_, List.Perm.refl _, List.Sublist.refl _, List.Sublist.refl _⟩
  intro frame hframe
  have hcut : (frames.position frame).toNat < original.splitBegin := by
    rw [← hsplitPos]
    exact UInt64.lt_iff_toNat_lt.mp (hbefore frame hframe)
  have hstaysRight : ¬ original.SplitsLeft key := by
    have hle := UInt64.le_iff_toNat_le.mp (hright frame hframe)
    rw [hsplitPos, hinsertPos] at hle
    exact Nat.not_lt.mpr hle
  refine Or.inl ⟨hframe, ?_⟩
  rw [hkept, slow.LeafNode.kept_eq, if_neg hstaysRight, List.getElem?_take_of_lt hcut]

theorem followEntries_of_stayInPlace (hkept : original'.mChildren = original.kept key)
    (hinsertPos : insertPos.toNat = original.insertIt key) (hsplitPos : splitPos.toNat = original.splitBegin)
    (hvisiting : Visiting source sibling original insertPos frames)
    (hstay : StayInPlace source insertPos splitPos frames) :
    ∃ rounds after, (moveFrames ndebug source sibling insertPos splitPos rounds).exec frames =
        (.ok none, after) ∧
      FollowEntries source sibling original original' sibling' frames after := by
  apply followEntries_of_stays hkept hinsertPos hsplitPos hvisiting
  · rcases hstay with hnone | ⟨_, hbefore⟩ | ⟨_, frame, hone, hbefore⟩
    · rw [hnone]
      exact fun _ hframe => (List.not_mem_nil hframe).elim
    · exact hbefore
    · rw [hone]
      intro other hother
      rwa [List.mem_singleton.mp hother]
  · rcases hstay with hnone | ⟨hlt, _⟩ | ⟨rfl, _⟩
    · rw [hnone]
      exact fun _ hframe => (List.not_mem_nil hframe).elim
    · exact fun _ _ => UInt64.le_of_lt hlt
    · exact fun _ _ => UInt64.le_refl _
  · rcases hstay with hnone | ⟨hlt, hbefore⟩ | ⟨_, frame, hone, _⟩
    · rw [hnone]
      exact fun _ hframe => (List.not_mem_nil hframe).elim
    · rintro frame hframe (⟨hbehind, _⟩ | ⟨_, hle⟩)
      · exact UInt64.not_lt.mpr hbehind (hbefore frame (List.mem_of_mem_dropLast hframe))
      · exact UInt64.not_lt.mpr hle hlt
    · rw [hone]
      exact fun _ hframe => (List.not_mem_nil hframe).elim

/-- A frame cannot get into the list of the sibling, so it has to follow its entry within
the original. -/
theorem entry_of_followEntries (hvisiting : Visiting source sibling original insertPos frames)
    (hdifferent : sibling ≠ source) {rounds : Nat} {after : Frames Node Frame}
    (hexec : (moveFrames ndebug source sibling insertPos splitPos rounds).exec frames = (.ok none, after))
    (hfollow : FollowEntries source sibling original original' sibling' frames after) :
    ∀ frame ∈ frames.visitorFrames source,
      original'.mChildren[(after.position frame).toNat]? =
        original.mChildren[(frames.position frame).toNat]? := by
  intro frame hframe
  obtain ⟨_, _, _, _, _, _, hothers⟩ := hvisiting.between.of_rounds hexec
  rcases hfollow.entry frame hframe with ⟨_, hentry⟩ | ⟨hmoved, _⟩
  · exact hentry
  · rw [hothers sibling hdifferent] at hmoved
    exact absurd hmoved (hvisiting.onlyHere frame hframe)

omit [DecidableEq Node] [DecidableEq Frame] in
/-- The position that a frame behind the split gets where the new entry goes before the
split: one too high. -/
theorem adjusted_left {position : UInt64} (hleft : insertPos < splitPos) (hbehind : splitPos ≤ position) :
    splitPos.toNat + (adjusted insertPos splitPos position).toNat = position.toNat + 1 := by
  have hgt : insertPos < position := UInt64.lt_of_lt_of_le hleft hbehind
  rw [adjusted, if_pos hbehind, if_neg (UInt64.lt_asymm hgt), if_pos hgt, UInt64.toNat_add,
    UInt64.toNat_sub_of_le _ _ hbehind, UInt64.toNat_one]
  rw [UInt64.lt_iff_toNat_lt] at hleft
  rw [UInt64.le_iff_toNat_le] at hbehind
  have := position.toNat_lt
  omega

/-- In a split to the left every frame of the source gets a position one too high. -/
theorem nil_of_followEntries_left (hdistinct : original.mChildren.Nodup)
    (hkept : original'.mChildren = original.kept key)
    (hinsertPos : insertPos.toNat = original.insertIt key) (hsplitPos : splitPos.toNat = original.splitBegin)
    (hvisiting : Visiting source sibling original insertPos frames) (hdifferent : sibling ≠ source)
    (hleft : original.SplitsLeft key) {rounds : Nat} {after : Frames Node Frame}
    (hexec : (moveFrames ndebug source sibling insertPos splitPos rounds).exec frames = (.ok none, after))
    (hfollow : FollowEntries source sibling original original' sibling' frames after) :
    frames.visitorFrames source = [] := by
  have hentry := entry_of_followEntries hvisiting hdifferent hexec hfollow
  rw [hkept, slow.LeafNode.kept_eq, if_pos hleft] at hentry
  have hshift : ∀ frame ∈ frames.visitorFrames source,
      original.splitBegin + (after.position frame).toNat = (frames.position frame).toNat := by
    intro frame hframe
    apply eq_of_getElem? hdistinct (hvisiting.within frame hframe)
    rw [← List.getElem?_drop]
    exact hentry frame hframe
  have hbehind : ∀ frame ∈ frames.visitorFrames source, splitPos ≤ frames.position frame := by
    intro frame hframe
    rw [UInt64.le_iff_toNat_le, hsplitPos, ← hshift frame hframe]
    exact Nat.le_add_right _ _
  have hlt : insertPos < splitPos := by
    rw [UInt64.lt_iff_toNat_lt, hinsertPos, hsplitPos]
    exact hleft
  have hstays : ∀ frame ∈ (frames.visitorFrames source).dropLast,
      ¬ Spliced insertPos splitPos (frames.position frame) := by
    rintro frame hframe (⟨_, hgt⟩ | ⟨hbefore, _⟩)
    · exact UInt64.lt_asymm hlt hgt
    · exact UInt64.not_lt.mpr (hbehind frame (List.mem_of_mem_dropLast hframe)) hbefore
  obtain rfl := moveFramesFrom_unique hexec (hvisiting.exec_moveFrames ndebug hstays)
  rw [List.eq_nil_iff_forall_not_mem]
  intro frame hframe
  have hmoved := hshift frame hframe
  have hposition : (frames.handled insertPos splitPos (frames.visitorFrames source)).position frame =
      adjusted insertPos splitPos (frames.position frame) := if_pos hframe
  have htooHigh := adjusted_left hlt (hbehind frame hframe)
  rw [hposition, ← hsplitPos] at hmoved
  omega

/-- In a split to the right every frame of the source was before the split. -/
theorem before_of_followEntries_right (hdistinct : original.mChildren.Nodup)
    (hkept : original'.mChildren = original.kept key) (hsplitPos : splitPos.toNat = original.splitBegin)
    (hvisiting : Visiting source sibling original insertPos frames) (hdifferent : sibling ≠ source)
    (hright : ¬ original.SplitsLeft key) {rounds : Nat} {after : Frames Node Frame}
    (hexec : (moveFrames ndebug source sibling insertPos splitPos rounds).exec frames = (.ok none, after))
    (hfollow : FollowEntries source sibling original original' sibling' frames after) :
    ∀ frame ∈ frames.visitorFrames source, frames.position frame < splitPos := by
  intro frame hframe
  have hentry := entry_of_followEntries hvisiting hdifferent hexec hfollow frame hframe
  rw [hkept, slow.LeafNode.kept_eq, if_neg hright, List.getElem?_take] at hentry
  rw [UInt64.lt_iff_toNat_lt, hsplitPos]
  by_cases hcut : (after.position frame).toNat < original.splitBegin
  · rw [if_pos hcut] at hentry
    rwa [← eq_of_getElem? hdistinct (hvisiting.within frame hframe) hentry]
  · rw [if_neg hcut, List.getElem?_eq_getElem (hvisiting.within frame hframe)] at hentry
    cases hentry

/-- After a split of a leaf whose entries differ, `moveFrames` keeps every frame on its
entry exactly if no frame has to move: there is none, or the entry went behind the split
with all frames before it, or to the split with a single frame before it. It never puts a
frame into the list of the sibling. -/
theorem moveFrames_followEntries_iff {siblingPtr : slow.NodePtr} {value : Bytes}
    (hsplit : (slow.LeafNode.splitAndInsert ndebug siblingPtr key value).exec (original, fresh) =
      (.ok (), (original', sibling')))
    (hdistinct : original.mChildren.Nodup) (hdifferent : sibling ≠ source)
    (hinsertPos : insertPos.toNat = original.insertIt key) (hsplitPos : splitPos.toNat = original.splitBegin)
    (hvisiting : Visiting source sibling original insertPos frames) :
    (∃ rounds after, (moveFrames ndebug source sibling insertPos splitPos rounds).exec frames =
        (.ok none, after) ∧
      FollowEntries source sibling original original' sibling' frames after) ↔
      StayInPlace source insertPos splitPos frames := by
  have hkept := kept_of_split hsplit
  constructor
  · rintro ⟨rounds, after, hexec, hfollow⟩
    by_cases hleft : original.SplitsLeft key
    · exact Or.inl (nil_of_followEntries_left hdistinct hkept hinsertPos hsplitPos hvisiting hdifferent hleft
        hexec hfollow)
    have hbefore := before_of_followEntries_right hdistinct hkept hsplitPos hvisiting hdifferent hleft hexec
      hfollow
    by_cases hlt : splitPos < insertPos
    · exact Or.inr (Or.inl ⟨hlt, hbefore⟩)
    -- The entry goes to the split itself, where all frames before it are spliced.
    have hsame : splitPos = insertPos := by
      apply UInt64.le_antisymm
      · rw [UInt64.le_iff_toNat_le, hsplitPos, hinsertPos]
        exact Nat.not_lt.mp hleft
      · exact UInt64.not_lt.mp hlt
    subst hsame
    by_cases hseveral : 2 ≤ (frames.visitorFrames source).length
    · exact absurd hexec (hvisiting.between.endless hseveral hbefore rounds)
    · cases hlist : frames.visitorFrames source with
      | nil => exact Or.inl hlist
      | cons frame later =>
        rw [hlist, List.length_cons] at hseveral
        obtain rfl : later = [] := List.eq_nil_of_length_eq_zero (by omega)
        refine Or.inr (Or.inr ⟨rfl, frame, hlist, hbefore frame ?_⟩)
        rw [hlist]
        exact List.mem_cons_self
  · exact followEntries_of_stayInPlace hkept hinsertPos hsplitPos hvisiting

end Claim

/-- A full leaf with four entries. -/
def fullLeaf : slow.LeafNode :=
  ⟨4044, ⟨none, .left, .empty⟩, [(.repeated 1 10, .repeated 1010 0), (.repeated 1 20, .repeated 1010 0),
    (.repeated 1 30, .repeated 1010 0), (.repeated 1 40, .repeated 1010 0)]⟩

/-- A frame in the list of the node `false`. -/
def oneFrame (position : UInt64) : Frames Bool Unit where
  visitorFrames := fun node => if node then [] else [()]
  position := fun _ => position

theorem fullLeaf_nodup : fullLeaf.mChildren.Nodup := by
  have hsorted : Sorted fullLeaf.mChildren := by
    unfold Sorted
    decide
  exact List.Nodup.of_map _ hsorted.keys_nodup

/-- An entry for the key 50 goes behind all others, into the right half. -/
theorem fullLeaf_split :
    (slow.LeafNode.splitAndInsert true (.leaf 1) (.repeated 1 50) (.repeated 1010 0)).exec
        (fullLeaf, slow.LeafNode.construct) =
      (.ok (), (fullLeaf.afterSplit (.leaf 1) (.repeated 1 50),
        slow.LeafNode.construct.grown (fullLeaf.moved (.repeated 1 50) (.repeated 1010 0)))) := by
  have hexec := slow.Ops.splitAndInsert_exec true (.leaf 1) fullLeaf slow.LeafNode.construct (.repeated 1 50)
    (.repeated 1010 0)
  rw [if_neg (by decide +kernel), if_neg (by decide +kernel), if_neg (by decide +kernel),
    if_neg (by decide +kernel)] at hexec
  exact hexec

theorem visiting_oneFrame (position : UInt64) (hwithin : position.toNat < 4) (helsewhere : position ≠ 4) :
    Visiting false true fullLeaf 4 (oneFrame position) where
  nodup := List.nodup_singleton ()
  onlyHere _ _ := List.not_mem_nil
  within _ _ := hwithin
  elsewhere _ _ := helsewhere

/-- A frame on the second entry, which stays in the original. -/
theorem followEntries_secondEntry :
    ∃ rounds after, (moveFrames true false true 4 2 rounds).exec (oneFrame 1) = (.ok none, after) ∧
      FollowEntries false true fullLeaf (fullLeaf.afterSplit (.leaf 1) (.repeated 1 50))
        (slow.LeafNode.construct.grown (fullLeaf.moved (.repeated 1 50) (.repeated 1010 0))) (oneFrame 1)
        after := by
  have hbefore : ∀ frame : Unit, frame ∈ (oneFrame 1).visitorFrames false → (oneFrame 1).position frame < 2 :=
    fun _ _ => (by decide : (1 : UInt64) < 2)
  refine (moveFrames_followEntries_iff fullLeaf_split fullLeaf_nodup (by decide) ?_ ?_
    (visiting_oneFrame 1 (by decide) (by decide))).mpr (Or.inr (Or.inl ⟨by decide, hbefore⟩))
  · decide +kernel
  · decide +kernel

/-- The fourth entry goes to the second position of the sibling. The frame on it gets that
position, but stays in the list of the original. -/
theorem not_followEntries_fourthEntry :
    (∃ after, (moveFrames true false true 4 2 1).exec (oneFrame 3) = (.ok none, after) ∧
        after.visitorFrames false = [()] ∧ after.visitorFrames true = [] ∧ after.position () = 1) ∧
      ¬ ∃ rounds after, (moveFrames true false true 4 2 rounds).exec (oneFrame 3) = (.ok none, after) ∧
        FollowEntries false true fullLeaf (fullLeaf.afterSplit (.leaf 1) (.repeated 1 50))
          (slow.LeafNode.construct.grown (fullLeaf.moved (.repeated 1 50) (.repeated 1010 0))) (oneFrame 3)
          after := by
  have hvisiting := visiting_oneFrame 3 (by decide) (by decide)
  refine ⟨⟨_, rfl, rfl, rfl, rfl⟩, ?_⟩
  rintro ⟨rounds, after, hexec, hfollow⟩
  have hright : ¬ fullLeaf.SplitsLeft (.repeated 1 50) := by decide +kernel
  have hbefore := before_of_followEntries_right fullLeaf_nodup (kept_of_split fullLeaf_split) rfl hvisiting
    (by decide) hright hexec hfollow () List.mem_cons_self
  exact absurd hbefore (by decide)

end tupl.pvt.ops
