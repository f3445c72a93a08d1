import Traitor.SortedSetMap
import Traitor.SortedSetRanks

namespace Traitor

open Lib.SkipChain Lib.Windows Database

attribute [local instance] bytesOrder

namespace SkipList

def node {σ : Type} (s : SkipList σ Bytes) (a : Addr) : Node σ := ⟨s.score a, s.member a, s.height a⟩

section

variable {σ μ : Type} {update : Nat → Addr} {cond : Nat → Addr → Bool} {s s' : SkipList σ μ}

theorem removeRun_height {fuel : Nat} {node : Option Addr} {removed : Nat} {elements : List (μ × σ)}
    (h : removeRun update cond fuel s node removed = some (s', elements)) : s'.height = s.height := by
  induction fuel generalizing s node removed elements with
  | zero =>
      cases node with
      | none => cases h; rfl
      | some node => cases h
  | succ fuel ih =>
      cases node with
      | none => cases h; rfl
      | some node =>
          rw [removeRun] at h
          split at h
          · obtain ⟨s₁, hone, h⟩ := Option.bind_eq_some_iff.mp h
            obtain ⟨⟨s₂, rest⟩, hrest, h⟩ := Option.bind_eq_some_iff.mp h
            cases h
            rw [removeNode] at hone
            split at hone
            · cases hone
              exact (ih hrest).trans rfl
            · cases hone
          · cases h
            rfl

end

theorem removeRangeByScore_height {σ μ : Type} [LinearOrder σ] [LinearOrder μ] {s s' : SkipList σ μ}
    {min max : ScoreBorder σ} {limit : Int} {elements : List (μ × σ)}
    (h : s.removeRangeByScore min max limit = some (s', elements)) : s'.height = s.height := by
  obtain ⟨found, -, h⟩ := Option.bind_eq_some_iff.mp h
  exact removeRun_height h

theorem removeRangeByRank_height {σ μ : Type} [LinearOrder σ] [LinearOrder μ] {s s' : SkipList σ μ}
    {start stop : Int} {elements : List (μ × σ)} (h : s.removeRangeByRank start stop = some (s', elements)) :
    s'.height = s.height := by
  obtain ⟨found, -, h⟩ := Option.bind_eq_some_iff.mp h
  exact removeRun_height h

variable {σ : Type} [LinearOrder σ] {s : SkipList σ Bytes} {nodes : List Addr} {member : Bytes} {score : σ}

theorem Shape.sorted_node (h : Shape s nodes) : (nodes.map s.node).Pairwise Node.Before :=
  List.pairwise_map.mpr h.sorted

/-- The node of a member and score, if there is one, is taken out of the row of nodes. -/
theorem Shape.remove_node (h : Shape s nodes) (member : Bytes) (score : σ) :
    ∃ s' b nodes', SkipList.remove s member score = some (s', b) ∧ Shape s' nodes' ∧
      nodes'.map s'.node = ZSet.removeNode (nodes.map s.node) member score := by
  by_cases hnode : ∃ x ∈ nodes, s.score x = score ∧ s.member x = member
  · obtain ⟨x, hx, rfl, rfl⟩ := hnode
    obtain ⟨front, back, rfl⟩ := List.append_of_mem hx
    obtain ⟨update, hr, hshape⟩ := h.remove_split
    refine ⟨_, true, front ++ back, hr, hshape, ?_⟩
    have hsorted := h.sorted_node
    rw [List.map_append, List.map_cons] at hsorted
    rw [List.map_append, List.map_append, List.map_cons]
    exact (ZSet.removeNode_split hsorted).symm
  · have hfree (a : Addr) (ha : a ∈ nodes) : ¬ (s.score a = score ∧ s.member a = member) :=
      fun he => hnode ⟨a, ha, he⟩
    refine ⟨s, false, nodes, h.remove_absent hfree, h, (ZSet.removeNode_absent ?_).symm⟩
    exact List.forall_mem_map.mpr hfree

/-- A new node is put into the row of nodes where its score and member belong. -/
theorem Shape.insert_node (h : Shape s nodes) (hfree : ∀ a ∈ nodes, s.member a ≠ member) (score : σ)
    {height : Nat} (hpos : 1 ≤ height) (hheight : height ≤ maxLevel) :
    ∃ s' nodes', SkipList.insert s member score height = some s' ∧ Shape s' nodes' ∧
      nodes'.map s'.node = ZSet.insertNode (nodes.map s.node) member score height := by
  obtain ⟨front, back, rfl, hfront, hback⟩ := exists_split _ (precedes_mono h member score)
  obtain ⟨update, rank, hi, hshape⟩ := h.insert_split hfront hback (fun a ha he => hfree a ha he.2) hpos hheight
  refine ⟨_, front ++ s.fresh :: back, hi, hshape, ?_⟩
  have hnew : (SkipList.link s member score height update rank).node s.fresh = ⟨score, member, height⟩ := by
    simp [node, SkipList.link]
  have hold (a : Addr) (ha : a ∈ header :: (front ++ back)) :
      (SkipList.link s member score height update rank).node a = s.node a := by
    have hne : a ≠ s.fresh := fun he => h.fresh_not_mem (he ▸ ha)
    simp [node, SkipList.link, hne]
  have hfront' : ∀ a ∈ front.map s.node, ZSet.precedes member score a = true := List.forall_mem_map.mpr hfront
  have hback' : ∀ a ∈ back.map s.node, ZSet.precedes member score a = false := List.forall_mem_map.mpr hback
  rw [ZSet.insertNode, List.map_append, List.map_append, takeWhile_split hfront' hback',
    dropWhile_split hfront' hback', List.map_cons, hnew]
  congr 1
  · exact List.map_congr_left fun a ha => hold a (by simp [ha])
  · congr 1
    exact List.map_congr_left fun a ha => hold a (by simp [ha])

end SkipList

namespace SortedSet

open SkipList

variable {σ : Type} [LinearOrder σ]

/-- The set of the commands has the pairs of the dictionary and the nodes of the linked one. -/
structure Mirrors (s : SortedSet σ Bytes) (z : ZSet σ) : Prop where
  sound : Sound s s.skipList.nodes
  nodes : z.nodes = s.skipList.nodes.map s.skipList.node
  dict : ∀ member, z.dict.lookup member = s.dict member

variable {s : SortedSet σ Bytes} {z : ZSet σ} {nodes : List Addr} {member : Bytes} {score : σ} {height : Nat}

theorem mirrors_of (hs : Sound s nodes) (hnodes : z.nodes = nodes.map s.skipList.node)
    (hdict : ∀ member, z.dict.lookup member = s.dict member) : Mirrors s z := by
  have hsame := hs.shape.nodes_eq
  subst hsame
  exact ⟨hs, hnodes, hdict⟩

theorem make_mirrors [Inhabited σ] : Mirrors (make : SortedSet σ Bytes) ZSet.make :=
  mirrors_of make_sound rfl fun _ => rfl

omit [LinearOrder σ] in
theorem lookup_insert_eq {d : Dict σ} {dict : Bytes → Option σ} (h : ∀ m, d.lookup m = dict m) (member : Bytes)
    (score : σ) (m : Bytes) : (d.insert member score).lookup m = Function.update dict member (some score) m := by
  by_cases hm : m = member
  · subst hm
    rw [Finmap.lookup_insert, Function.update_self]
  · rw [Finmap.lookup_insert_of_ne _ hm, Function.update_of_ne hm, h]

omit [LinearOrder σ] in
theorem lookup_erase_eq {d : Dict σ} {dict : Bytes → Option σ} (h : ∀ m, d.lookup m = dict m) (member m : Bytes) :
    (d.erase member).lookup m = Function.update dict member none m := by
  by_cases hm : m = member
  · subst hm
    rw [Finmap.lookup_erase, Function.update_self]
  · rw [Finmap.lookup_erase_ne hm, Function.update_of_ne hm, h]

/-- The node of a member that is in the dictionary goes, whether or not a panic has left it without one. -/
theorem Mirrors.remove_node (h : Mirrors s z) (hd : s.dict member = some score) :
    ∃ s' b nodes', s.skipList.remove member score = some (s', b) ∧ Shape s' nodes' ∧
      nodes'.map s'.node = ZSet.removeNode z.nodes member score ∧
      (∀ a ∈ nodes', s.dict (s'.member a) = some (s'.score a) ∧ s'.member a ≠ member) ∧
      s'.member header = default := by
  obtain ⟨s', b, nodes', hr, hshape, hmem, hheader⟩ := h.sound.remove_node hd
  obtain ⟨s₁, b₁, nodes₁, hr₁, hshape₁, hnodes⟩ := h.sound.shape.remove_node member score
  rw [hr] at hr₁
  obtain ⟨rfl, rfl⟩ := Prod.mk.inj (Option.some.inj hr₁)
  have hsame : nodes₁ = nodes' := hshape₁.nodes_eq.symm.trans hshape.nodes_eq
  exact ⟨s', b, nodes', hr, hshape, by rw [h.nodes, ← hnodes, hsame], hmem, hheader⟩

/-- A node that is not too high is linked in and mirrored. -/
theorem insert_mirrors {sk : SkipList σ Bytes} (hs : Shape sk nodes) {dict : Bytes → Option σ}
    (hdict : ∀ a ∈ nodes, dict (sk.member a) = some (sk.score a)) (hheader : sk.member header = default)
    (hfree : ∀ a ∈ nodes, sk.member a ≠ member) {d : Dict σ} (hd : ∀ m, d.lookup m = dict m) (score : σ)
    (hpos : 1 ≤ height) (hheight : height ≤ maxLevel) :
    ∃ s', sk.insert member score height = some s' ∧
      Mirrors ⟨Function.update dict member (some score), s'⟩
        ⟨d.insert member score, ZSet.insertNode (nodes.map sk.node) member score height⟩ := by
  obtain ⟨s', nodes', hi, hsound, -⟩ := insert_sound hs hdict hheader hfree score hpos hheight
  obtain ⟨s₁, nodes₁, hi₁, hshape₁, hnodes⟩ := hs.insert_node hfree score hpos hheight
  rw [hi] at hi₁
  obtain rfl := Option.some.inj hi₁
  have hsame : nodes₁ = nodes' := hshape₁.nodes_eq.symm.trans hsound.shape.nodes_eq
  exact ⟨s', hi, mirrors_of hsound (by rw [← hnodes, hsame]) (lookup_insert_eq hd member score)⟩

/-- What is left of an insertion that panics has the score in the dictionary and no node. -/
theorem insertPanicked_mirrors {sk : SkipList σ Bytes} (hs : Shape sk nodes) {dict : Bytes → Option σ}
    (hdict : ∀ a ∈ nodes, dict (sk.member a) = some (sk.score a)) (hheader : sk.member header = default)
    (hfree : ∀ a ∈ nodes, sk.member a ≠ member) {d : Dict σ} (hd : ∀ m, d.lookup m = dict m) (score : σ) :
    Mirrors ⟨Function.update dict member (some score), sk.insertPanicked⟩
      ⟨d.insert member score, nodes.map sk.node⟩ := by
  have hsound : Sound ⟨Function.update dict member (some score), sk.insertPanicked⟩ nodes :=
    ⟨hs.insertPanicked, fun a ha => (Function.update_of_ne (hfree a ha) _ _).trans (hdict a ha), hheader⟩
  exact mirrors_of hsound rfl (lookup_insert_eq hd member score)

/-- A node that is too high panics, and what is left is mirrored. -/
theorem Mirrors.add (h : Mirrors s z) (member : Bytes) (score : σ) (hpos : 1 ≤ height) :
    (s.add member score height).map Prod.snd = (z.add member score height).2 ∧
      ∃ s', ((s.add member score height).map Prod.fst <|> s.addPanicked member score) = some s' ∧
        Mirrors s' (z.add member score height).1 := by
  have hlookup := h.dict member
  rw [SortedSet.add, SortedSet.addPanicked, ZSet.add, hlookup]
  cases hd : s.dict member with
  | none =>
      have hfree (a : Addr) (ha : a ∈ s.skipList.nodes) : s.skipList.member a ≠ member := by
        intro he
        have hsome := h.sound.dict a ha
        rw [he, hd] at hsome
        cases hsome
      dsimp only
      by_cases hheight : maxLevel < height
      · rw [insert_high hheight, if_pos hheight, h.nodes]
        exact ⟨rfl, _, rfl, insertPanicked_mirrors h.sound.shape h.sound.dict h.sound.header hfree h.dict score⟩
      · obtain ⟨s', hi, hmirrors⟩ := insert_mirrors h.sound.shape h.sound.dict h.sound.header hfree h.dict
          score hpos (not_lt.mp hheight)
        rw [hi, if_neg hheight, h.nodes]
        exact ⟨rfl, _, rfl, hmirrors⟩
  | some old =>
      dsimp only
      by_cases hne : score ≠ old
      · obtain ⟨sk, b, nodes, hr, hshape, hnodes, hmem, hheader⟩ := h.remove_node hd
        rw [if_pos hne, if_pos hne, hr, ← hnodes]
        simp only [Option.bind_eq_bind, Option.bind_some]
        by_cases hheight : maxLevel < height
        · rw [insert_high hheight, if_pos hheight]
          exact ⟨rfl, _, rfl, insertPanicked_mirrors hshape (fun a ha => (hmem a ha).1) hheader
            (fun a ha => (hmem a ha).2) h.dict score⟩
        · obtain ⟨s', hi, hmirrors⟩ := insert_mirrors hshape (fun a ha => (hmem a ha).1) hheader
            (fun a ha => (hmem a ha).2) h.dict score hpos (not_lt.mp hheight)
          rw [hi, if_neg hheight]
          exact ⟨rfl, _, rfl, hmirrors⟩
      · rw [if_neg hne, if_neg hne]
        refine ⟨rfl, _, rfl, mirrors_of ⟨h.sound.shape, fun a ha => ?_, h.sound.header⟩ h.nodes
          (lookup_insert_eq h.dict member score)⟩
        have hsame : Function.update s.dict member (some score) = s.dict := by
          rw [not_not.mp hne, ← hd, Function.update_eq_self]
        rw [hsame]
        exact h.sound.dict a ha

theorem Mirrors.remove (h : Mirrors s z) (member : Bytes) :
    ∃ s', s.remove member = some (s', (z.remove member).2) ∧ Mirrors s' (z.remove member).1 := by
  have hlookup := h.dict member
  rw [SortedSet.remove, ZSet.remove, hlookup]
  cases hd : s.dict member with
  | none => exact ⟨s, rfl, h⟩
  | some score =>
      obtain ⟨sk, b, nodes, hr, hshape, hnodes, hmem, hheader⟩ := h.remove_node hd
      dsimp only
      rw [hr, ← hnodes]
      have hsound : Sound ⟨Function.update s.dict member none, sk⟩ nodes :=
        ⟨hshape, fun a ha => (Function.update_of_ne (hmem a ha).2 _ _).trans (hmem a ha).1, hheader⟩
      exact ⟨_, rfl, mirrors_of hsound rfl (lookup_erase_eq h.dict member)⟩

omit [LinearOrder σ] in
theorem lookup_deleteAll_eq (sk : SkipList σ Bytes) (row : List Addr) {d : Dict σ} {dict : Bytes → Option σ}
    (h : ∀ m, d.lookup m = dict m) (m : Bytes) :
    (ZSet.deleteAll d (row.map sk.node)).lookup m = deleteAll dict (row.map sk.element) m := by
  induction row generalizing d dict with
  | nil => exact h m
  | cons a row ih => exact ih (lookup_erase_eq h (sk.member a))

def pair (a : Node σ) : Bytes × σ := (a.member, a.score)

/-- Nodes in a row that leave together with their members. -/
theorem Mirrors.removeMiddle (h : Mirrors s z) {front row back : List Addr}
    (hrow : s.skipList.nodes = front ++ (row ++ back)) {sk : SkipList σ Bytes} (hshape : Shape sk (front ++ back))
    (hm : sk.member = s.skipList.member) (hsc : sk.score = s.skipList.score)
    (hh : sk.height = s.skipList.height) :
    Mirrors ⟨deleteAll s.dict (row.map s.skipList.element), sk⟩
      (z.removeMiddle (front.map s.skipList.node) (row.map s.skipList.node) (back.map s.skipList.node)).1 := by
  obtain ⟨s₁, removed, nodes', heq, hsound⟩ :=
    h.sound.removesRow ⟨sk, front, row, back, hrow, rfl, hshape, hm, hsc⟩
  obtain ⟨rfl, rfl⟩ := Prod.mk.inj (Option.some.inj heq)
  refine mirrors_of hsound ?_ (lookup_deleteAll_eq s.skipList row h.dict)
  have hsame : nodes' = front ++ back := hsound.shape.nodes_eq.symm.trans hshape.nodes_eq
  have hnode : sk.node = s.skipList.node := by
    funext a
    rw [node, node, hm, hsc, hh]
  rw [hsame, hnode, List.map_append]
  rfl

theorem Mirrors.removeRangeByScore (h : Mirrors s z) (min max : ScoreBorder σ) (limit : Int) :
    ∃ sk, s.skipList.removeRangeByScore min max limit =
        some (sk, (z.removeRangeByScore min max limit).2.map pair) ∧
      Mirrors ⟨deleteAll s.dict ((z.removeRangeByScore min max limit).2.map pair), sk⟩
        (z.removeRangeByScore min max limit).1 := by
  obtain ⟨front, back, hsplit, hfront, hback⟩ :=
    exists_split (fun a => !min.less (s.skipList.score a)) ((less_pairwise h.sound.shape min).imp fun hab => by
      simpa using hab)
  have hshape := h.sound.shape
  rw [hsplit] at hshape
  have hbelow : ∀ a ∈ front, min.less (s.skipList.score a) = false := fun a ha => by simpa using hfront a ha
  obtain ⟨sk, hr, hsk, hm, hsc⟩ := hshape.removeRangeByScore_exact hbelow
    (fun a ha => by simpa using hback a ha) max limit
  have hfront' : ∀ a ∈ front.map s.skipList.node, (!min.less a.score) = true := List.forall_mem_map.mpr hfront
  have hback' : ∀ a ∈ back.map s.skipList.node, (!min.less a.score) = false := List.forall_mem_map.mpr hback
  have hremoved : (if 0 < limit then
        ((back.map s.skipList.node).takeWhile fun a => max.greater a.score).take limit.toNat
      else (back.map s.skipList.node).takeWhile fun a => max.greater a.score) =
      (takeRun (s.skipList.removesScore max limit) 0 back).map s.skipList.node := by
    rw [takeRun_removesScore, List.takeWhile_map]
    split
    · exact List.map_take.symm
    · rfl
  have hmiddle : z.removeRangeByScore min max limit = z.removeMiddle (front.map s.skipList.node)
      ((takeRun (s.skipList.removesScore max limit) 0 back).map s.skipList.node)
      ((back.drop (takeRun (s.skipList.removesScore max limit) 0 back).length).map s.skipList.node) := by
    rw [ZSet.removeRangeByScore, h.nodes, hsplit, List.map_append, takeWhile_split hfront' hback',
      dropWhile_split hfront' hback', hremoved, List.length_map, List.map_drop]
  have hpairs : (z.removeRangeByScore min max limit).2.map pair =
      (takeRun (s.skipList.removesScore max limit) 0 back).map s.skipList.element := by
    rw [hmiddle, ZSet.removeMiddle, List.map_map]
    rfl
  rw [hpairs, hmiddle]
  refine ⟨sk, hr, h.removeMiddle ?_ hsk hm hsc (removeRangeByScore_height hr)⟩
  rw [hsplit, takeRun_append_drop]

theorem Mirrors.removeRangeByRank (h : Mirrors s z) (start stop : Int) :
    ∃ sk, s.skipList.removeRangeByRank start stop = some (sk, (z.removeRangeByRank start stop).2.map pair) ∧
      Mirrors ⟨deleteAll s.dict ((z.removeRangeByRank start stop).2.map pair), sk⟩
        (z.removeRangeByRank start stop).1 := by
  obtain ⟨sk, hr, hsk, hm, hsc⟩ := h.sound.shape.removeRangeByRank_exact start stop
  have hmiddle : z.removeRangeByRank start stop =
      z.removeMiddle ((s.skipList.nodes.take (start - 1).toNat).map s.skipList.node)
        (((s.skipList.nodes.drop (start - 1).toNat).take
          (stop - 1 - (s.skipList.nodes.take (start - 1).toNat).length).toNat).map s.skipList.node)
        (((s.skipList.nodes.drop (start - 1).toNat).drop
          (stop - 1 - (s.skipList.nodes.take (start - 1).toNat).length).toNat).map s.skipList.node) := by
    rw [ZSet.removeRangeByRank, h.nodes, ← List.map_take, ← List.map_drop, ← List.map_take, List.length_map,
      show stop - (((s.skipList.nodes.take (start - 1).toNat).length : Int) + 1) =
        stop - 1 - (s.skipList.nodes.take (start - 1).toNat).length by omega, List.length_map, ← List.map_drop,
      drop_length_take]
  have hpairs : (z.removeRangeByRank start stop).2.map pair = ((s.skipList.nodes.drop (start - 1).toNat).take
      (stop - 1 - (s.skipList.nodes.take (start - 1).toNat).length).toNat).map s.skipList.element := by
    rw [hmiddle, ZSet.removeMiddle, List.map_map]
    rfl
  rw [hpairs, hmiddle]
  refine ⟨sk, hr, h.removeMiddle ?_ hsk hm hsc (removeRangeByRank_height hr)⟩
  rw [List.take_append_drop, List.take_append_drop]

theorem Mirrors.removeByScore (h : Mirrors s z) (min max : ScoreBorder σ) :
    ∃ s', s.removeByScore min max = some (s', (z.removeByScore min max).2.length) ∧
      Mirrors s' (z.removeByScore min max).1 := by
  obtain ⟨sk, hr, hmirrors⟩ := h.removeRangeByScore min max 0
  refine ⟨_, ?_, hmirrors⟩
  rw [SortedSet.removeByScore, hr]
  simp only [Option.bind_eq_bind, Option.bind_some, List.length_map]
  rfl

/-- Positions whose ranks are representable. -/
theorem Mirrors.removeByRank (h : Mirrors s z) {start stop : Int} (hstart : -2 ^ 63 ≤ start ∧ start < 2 ^ 63 - 1)
    (hstop : -2 ^ 63 ≤ stop ∧ stop < 2 ^ 63 - 1) :
    ∃ s', s.removeByRank start stop = some (s', (z.removeByRank start stop).2.length) ∧
      Mirrors s' (z.removeByRank start stop).1 := by
  obtain ⟨sk, hr, hmirrors⟩ := h.removeRangeByRank (start + 1) (stop + 1)
  refine ⟨_, ?_, hmirrors⟩
  rw [SortedSet.removeByRank, wrap64_of_lt (by omega) (by omega), wrap64_of_lt (by omega) (by omega), hr]
  simp only [Option.bind_eq_bind, Option.bind_some, List.length_map]
  rfl

theorem Mirrors.head (h : Mirrors s z) : z.nodes.head? = s.skipList.nodes.head?.map s.skipList.node := by
  rw [h.nodes, List.head?_map]

theorem fromFirst_all [Inhabited σ] (nodes : List (Node σ)) :
    ZSet.fromFirst nodes .negativeInfBorder .positiveInfBorder = nodes := by
  cases nodes with
  | nil => simp [ZSet.fromFirst, ZSet.hasInRange]
  | cons a nodes =>
      obtain ⟨t, ht⟩ : ∃ t, (a :: nodes).getLast? = some t := ⟨_, List.getLast?_cons⟩
      simp [ZSet.fromFirst, ZSet.hasInRange, ht, ScoreBorder.negativeInfBorder, ScoreBorder.positiveInfBorder,
        ScoreBorder.less, ScoreBorder.greater]

/-- The nil of an empty set is a slice without elements. -/
theorem Mirrors.popMin [Inhabited σ] (h : Mirrors s z) (count : Int) :
    ∃ s' popped, s.popMin count = some (s', popped) ∧ popped.getD [] = (z.popMin count).2.map pair ∧
      Mirrors s' (z.popMin count).1 := by
  have hfirst := h.sound.shape.getFirst
  have hhead := h.head
  rw [SortedSet.popMin, hfirst, ZSet.popMin, fromFirst_all]
  cases hnodes : z.nodes with
  | nil =>
      rw [hnodes, List.head?_nil, eq_comm, Option.map_eq_none_iff] at hhead
      rw [hhead]
      exact ⟨s, none, rfl, rfl, h⟩
  | cons a rest =>
      rw [hnodes, List.head?_cons, eq_comm, Option.map_eq_some_iff] at hhead
      obtain ⟨first, hfirst, rfl⟩ := hhead
      obtain ⟨sk, hr, hmirrors⟩ := h.removeRangeByScore ⟨.finite, s.skipList.score first, false⟩
        .positiveInfBorder count
      rw [hfirst]
      simp only [Option.bind_eq_bind, Option.bind_some, hr]
      exact ⟨_, _, rfl, rfl, hmirrors⟩

end SortedSet

end Traitor
