import Traitor.LostElements

namespace Traitor.Database

open Lib.Effects Lib.Strconv Protocol

variable {σ : Type} [LinearOrder σ]

namespace ZSet

def given (c : Choices) (z : ZSet σ) (i : Nat) : List (Bytes × σ) → ZSet σ
  | [] => z
  | (member, score) :: elements =>
      match z.add member score (c.height i) with
      | (z, none) => z
      | (z, some _) => z.given c (i + 1) elements

variable {z : ZSet σ} {member : Bytes} {score old : σ}

theorem add_same (h : z.dict.lookup member = some score) (height : Nat) :
    z.add member score height = (⟨z.dict.insert member score, z.nodes⟩, some false) := by
  simp [add, h]

theorem add_moved (h : z.dict.lookup member = some old) (hne : score ≠ old) (height : Nat) :
    z.add member score height =
      if SkipList.maxLevel < height then
        (⟨z.dict.insert member score, removeNode z.nodes member old⟩, none)
      else (⟨z.dict.insert member score, insertNode (removeNode z.nodes member old) member score height⟩,
        some false) := by
  simp [add, h, hne]

omit [LinearOrder σ] in
theorem insert_same (h : z.dict.lookup member = some score) : z.dict.insert member score = z.dict := by
  apply Finmap.ext_lookup
  intro k
  by_cases hk : k = member
  · rw [hk, Finmap.lookup_insert, h]
  · rw [Finmap.lookup_insert_of_ne _ hk]

/-- Elements that are there with their scores change nothing. -/
theorem given_same {c : Choices} {elements : List (Bytes × σ)} {i : Nat}
    (h : ∀ a ∈ elements, z.dict.lookup a.1 = some a.2) : z.given c i elements = z := by
  induction elements generalizing i with
  | nil => rfl
  | cons a elements ih =>
      obtain ⟨member, score⟩ := a
      have hlookup : z.dict.lookup member = some score := h (member, score) List.mem_cons_self
      simp only [given, add_same hlookup, insert_same hlookup]
      exact ih fun a ha => h a (List.mem_cons_of_mem _ ha)

theorem insertNode_heights (nodes : List (Node σ)) (member : Bytes) (score : σ) (height height' : Nat) :
    (insertNode nodes member score height).map (fun a => (a.score, a.member)) =
      (insertNode nodes member score height').map fun a => (a.score, a.member) := by
  simp [insertNode]

theorem length_insertNode (nodes : List (Node σ)) (member : Bytes) (score : σ) (height : Nat) :
    (insertNode nodes member score height).length = nodes.length + 1 := by
  have hsplit := congrArg List.length (List.takeWhile_append_dropWhile (p := precedes member score) (l := nodes))
  rw [List.length_append] at hsplit
  rw [insertNode, List.length_append, List.length_cons]
  omega

end ZSet

variable {env : Env σ} {ch : Choices} {w : World σ} {key : Bytes} {args : List Slice}

section

variable (env) (ch) (w) (args)

/-- `ZADD` hands nothing on. A member gets another score than it has, and is not brought back by the
elements after it. -/
def ZAddLoses : Prop :=
  ∃ key rest elements, args = key :: rest ∧ rest.length % 2 = 0 ∧ parseElements env rest = some elements ∧
    (Absent w (text key) ∨ ∃ z, (w.db.slot (text key)).data = some (.zset z) ∧
      (∃ a ∈ elements, z.dict.lookup a.1 ≠ some a.2) ∧
      ¬ (Entity.zset (z.given env.choices 0 elements)).Same (.zset z))

/-- `ZINCRBY` makes a set for nothing, or moves an element whose node is too high, now or in the
replay. -/
def ZIncrByLoses : Prop :=
  ∃ key rawDelta field rest delta, args = key :: rawDelta :: field :: rest ∧
    env.lib.parseFloat (text rawDelta) = some delta ∧
    (Absent w (text key) ∨ ∃ z old, (w.db.slot (text key)).data = some (.zset z) ∧
      z.dict.lookup (text field) = some old ∧ env.lib.addFloat old delta ≠ old ∧
      (SkipList.maxLevel < env.choices.height 0 ∨ SkipList.maxLevel < ch.height 0))

end

/-- The elements are put under the key, and nothing is handed on. -/
theorem wp_addElements (env : Env σ) {z : ZSet σ} (i : Nat) (elements : List (Bytes × σ)) {u : World σ}
    (hz : (u.db.slot key).data = some (.zset z)) :
    wp (addElements env key z i elements) (fun _ w' => w'.aof = u.aof ∧ ∀ k, w'.db.slot k =
      if k = key then ⟨some (.zset (z.given env.choices i elements)), (u.db.slot key).ttl⟩
      else u.db.slot k) u := by
  fun_induction ZSet.given env.choices z i elements generalizing u with
  | case1 z i =>
      refine ⟨rfl, fun k => ?_⟩
      by_cases hk : k = key
      · rw [if_pos hk, hk, ← hz]
      · rw [if_neg hk]
  | case2 z i member score elements z' hadd =>
      simp only [addElements, addElement, hadd, setSortedSet, putEntity, wp_bind, wp_modifyDB, wp_panics]
      exact ⟨trivial, fun k => DB.slot_put _⟩
  | case3 z i member score elements z' isNew hadd ih =>
      have hput : ((u.db.put key (.zset z')).slot key).data = some (.zset z') := by
        rw [DB.slot_put, if_pos rfl]
      simp only [addElements, addElement, hadd, setSortedSet, putEntity, wp_bind, wp_modifyDB, wp_pure]
      have hrest : wp (addElements env key z' (i + 1) elements) _ { u with db := u.db.put key (.zset z') } := ih hput
      apply wp_mono hrest
      intro r w' h
      have hslot (k : Bytes) : w'.db.slot k =
          if k = key then ⟨some (.zset (z'.given env.choices (i + 1) elements)), (u.db.slot key).ttl⟩
          else u.db.slot k := by
        rw [h.2 k]
        by_cases hk : k = key <;> simp [hk]
      cases r with
      | none => exact ⟨h.1, hslot⟩
      | some n => exact ⟨h.1, hslot⟩

section

variable [Inhabited σ]

theorem given_recovers_iff {z : ZSet σ} {elements : List (Bytes × σ)} {u : World σ} (haof : u.aof = w.aof)
    (hu : ∀ k, k ≠ key → u.db.slot k = w.db.slot k) (hz : (u.db.slot key).data = some (.zset z)) :
    wp (do return Reply.int (← addElements env key z 0 elements)) (fun _ w' => Recovers env ch w w') u ↔
      (⟨some (.zset (z.given env.choices 0 elements)), (u.db.slot key).ttl⟩ : Slot σ).Agrees
        (w.db.slot key) := by
  have hwp := (wp_iff _ _ u).mp (wp_addElements env 0 elements hz)
  have hrecovers : Recovers env ch w (final (addElements env key z 0 elements) u) ↔ _ :=
    recovers_unlogged_iff (hwp.1.trans haof) fun k => by
      rw [hwp.2 k]
      by_cases hk : k = key
      · rw [if_pos hk, if_pos hk]
      · rw [if_neg hk, if_neg hk, hu k hk]
  rw [wp_bind, wp_iff]
  cases value (addElements env key z 0 elements) u <;> exact hrecovers

/-- Elements for a set that is there. -/
theorem given_there {z : ZSet σ} {elements : List (Bytes × σ)}
    (hz : (w.db.slot key).data = some (.zset z)) :
    Logged env ch (do return .int (← addElements env key z 0 elements)) w ↔
      (Entity.zset (z.given env.choices 0 elements)).Same (.zset z) := by
  rw [Logged, given_recovers_iff rfl (fun _ _ => rfl) hz]
  generalize w.db.slot key = s at hz
  obtain ⟨data, ttl⟩ := s
  obtain rfl : data = _ := hz
  exact Slot.agrees_some_iff

/-- Elements for a set that is made for them. -/
theorem given_created {elements : List (Bytes × σ)} (hgone : (w.db.slot key).data = none) :
    ¬ wp (do return Reply.int (← addElements env key ZSet.make 0 elements))
      (fun _ w' => Recovers env ch w w') { w with db := w.db.put key (.zset .make) } := by
  intro h
  have hother (k : Bytes) (hk : k ≠ key) : (w.db.put key (.zset .make)).slot k = w.db.slot k := by
    rw [DB.slot_put, if_neg hk]
  have hmade : ((w.db.put key (.zset .make)).slot key).data = some (.zset .make) := by
    rw [DB.slot_put, if_pos rfl]
  have hagrees := (given_recovers_iff (w := w) (u := ⟨w.db.put key (.zset .make), w.aof⟩) rfl hother hmade).mp h
  obtain ⟨hdata, -⟩ := hagrees
  rw [hgone] at hdata
  cases hdata

theorem execZAdd_logged_iff (hfresh : NoneExpired env w) :
    Logged env ch (execZAdd env args) w ↔ ¬ ZAddLoses env w args := by
  rcases args with _ | ⟨key, rest⟩
  · exact iff_of_true (.pure _) (by simp [ZAddLoses])
  have hloses : ZAddLoses env w (key :: rest) ↔ rest.length % 2 = 0 ∧ ∃ elements,
      parseElements env rest = some elements ∧
        (Absent w (text key) ∨ ∃ z, (w.db.slot (text key)).data = some (.zset z) ∧
          ¬ (Entity.zset (z.given env.choices 0 elements)).Same (.zset z)) := by
    constructor
    · rintro ⟨key', rest', elements, heq, hrest, hparse, hor⟩
      cases heq
      refine ⟨hrest, elements, hparse, hor.imp_right ?_⟩
      rintro ⟨z, hz, -, hsame⟩
      exact ⟨z, hz, hsame⟩
    · rintro ⟨hrest, elements, hparse, hor⟩
      refine ⟨key, rest, elements, rfl, hrest, hparse, hor.imp_right ?_⟩
      rintro ⟨z, hz, hsame⟩
      refine ⟨z, hz, ?_, hsame⟩
      by_contra hnone
      have hall (a : Bytes × σ) (ha : a ∈ elements) : z.dict.lookup a.1 = some a.2 := by
        by_contra hne
        exact hnone ⟨a, ha, hne⟩
      rw [ZSet.given_same hall] at hsame
      exact hsame (.refl _)
  rw [hloses, execZAdd]
  by_cases hlength : (key :: rest).length % 2 ≠ 1
  · rw [if_pos hlength]
    apply iff_of_true (.pure _)
    intro h
    rw [List.length_cons] at hlength
    omega
  · have hrest : rest.length % 2 = 0 := by
      rw [List.length_cons] at hlength
      omega
    rw [if_neg hlength]
    cases hparse : parseElements env rest with
    | none => exact iff_of_true (.pure _) (by simp)
    | some elements =>
        simp only [hrest, true_and, Option.some.injEq, exists_eq_left']
        refine (Logged.getOrInit_iff .zset (fun _ _ => asSortedSet_eq) (fun _ => rfl) hfresh fun _ => rfl).trans ?_
        constructor
        · rintro ⟨hsome, hnone⟩ (hgone | ⟨z, hz, hsame⟩)
          · exact given_created hgone (hnone hgone)
          · exact hsame ((given_there hz).mp (hsome z hz))
        · intro h
          refine ⟨fun z hz => (given_there hz).mpr ?_, fun hgone => absurd (.inl hgone) h⟩
          by_contra hsame
          exact h (.inr ⟨z, hz, hsame⟩)

omit [Inhabited σ] in
theorem wp_addElement (key : Bytes) (z : ZSet σ) (member : Bytes) (score : σ) (height : Nat)
    (Q : Option (ZSet σ × Bool) → World σ → Prop) (u : World σ) :
    wp (addElement key z member score height) Q u =
      Q ((z.add member score height).2.map ((z.add member score height).1, ·))
        { u with db := u.db.put key (.zset (z.add member score height).1) } := by
  rcases hadd : z.add member score height with ⟨z', _ | isNew⟩ <;>
    simp [addElement, hadd, setSortedSet, putEntity]

omit [Inhabited σ] in
/-- What `ZINCRBY` does to a member that is there. -/
theorem execZIncrBy_final (hfresh : NoneExpired env w) {key rawDelta field : Slice} {rest : List Slice}
    {delta old : σ} {z : ZSet σ} (hdelta : env.lib.parseFloat (text rawDelta) = some delta)
    (hz : (w.db.slot (text key)).data = some (.zset z)) (hold : z.dict.lookup (text field) = some old) :
    final (execZIncrBy env (key :: rawDelta :: field :: rest)) w =
      ⟨w.db.put (text key) (.zset (z.add (text field) (env.lib.addFloat old delta) (env.choices.height 0)).1),
        if (z.add (text field) (env.lib.addFloat old delta) (env.choices.height 0)).2 = none then w.aof
        else w.aof ++ [cmdLine3 "zincrby" (key :: rawDelta :: field :: rest)]⟩ := by
  apply final_eq
  have hview : w.db.view env Entity.asSortedSet (text key) = .ok (some z) := by
    rw [DB.view, hfresh.live, hz]
    rfl
  rw [execZIncrBy, hdelta]
  dsimp only
  rw [wp_bind, getOrInitSortedSet, getOrInit, wp_bind, wp_getAs, hview, hfresh.evict]
  simp only [wp_pure, ZSet.get, hold]
  rw [wp_bind, wp_addElement]
  cases (z.add (text field) (env.lib.addFloat old delta) (env.choices.height 0)).2 <;> rfl

/-- A member with its score again comes back, and one with another score unless its node is too high. -/
theorem execZIncrBy_there_logged_iff (hfresh : NoneExpired env w) {key rawDelta field : Slice} {rest : List Slice}
    (harity : validateArity 4 (cmdLine3 "zincrby" (key :: rawDelta :: field :: rest)) = true)
    {delta old : σ} {z : ZSet σ} (hdelta : env.lib.parseFloat (text rawDelta) = some delta)
    (hz : (w.db.slot (text key)).data = some (.zset z)) (hold : z.dict.lookup (text field) = some old) :
    Logged env ch (execZIncrBy env (key :: rawDelta :: field :: rest)) w ↔
      (env.lib.addFloat old delta ≠ old →
        ¬ (SkipList.maxLevel < env.choices.height 0 ∨ SkipList.maxLevel < ch.height 0)) := by
  rw [Logged.iff_final, execZIncrBy_final hfresh hdelta hz hold]
  have hreplay : (loadAof (env.rechoose ch) [cmdLine3 "zincrby" (key :: rawDelta :: field :: rest)] w).db.slot =
      (w.db.put (text key) (.zset (z.add (text field) (env.lib.addFloat old delta) (ch.height 0)).1)).slot := by
    have hfresh' : NoneExpired (env.rechoose ch) w := hfresh
    have hfinal : final (execZIncrBy (env.rechoose ch) (key :: rawDelta :: field :: rest)) w = _ :=
      execZIncrBy_final hfresh' hdelta hz hold
    rw [loadAof_cons, loadAof_nil, exec_slot (c := .zIncrBy) rfl harity]
    exact congrArg (fun u => u.db.slot) hfinal
  generalize env.lib.addFloat old delta = score at hreplay ⊢
  have hlogged (hsome : (z.add (text field) score (env.choices.height 0)).2 ≠ none) :
      Recovers env ch w ⟨w.db.put (text key) (.zset (z.add (text field) score (env.choices.height 0)).1),
        if (z.add (text field) score (env.choices.height 0)).2 = none then w.aof
        else w.aof ++ [cmdLine3 "zincrby" (key :: rawDelta :: field :: rest)]⟩ ↔
      (Entity.zset (z.add (text field) score (env.choices.height 0)).1).Same
        (.zset (z.add (text field) score (ch.height 0)).1) := by
    rw [if_neg hsome, recovers_append_iff rfl, hreplay,
      agrees_at_iff (fun k => DB.slot_put _) (fun k => DB.slot_put _), Slot.agrees_some_iff]
  by_cases hne : score = old
  · have hlookup : z.dict.lookup (text field) = some score := hne ▸ hold
    rw [ZSet.add_same hlookup] at hlogged ⊢
    rw [ZSet.add_same hlookup] at hlogged
    exact iff_of_true ((hlogged (by simp)).mpr (.refl _)) fun h => absurd hne h
  · rw [ZSet.add_moved hold hne] at hlogged ⊢
    rw [ZSet.add_moved hold hne] at hlogged
    by_cases hheight : SkipList.maxLevel < env.choices.height 0
    · rw [if_pos hheight, if_pos rfl]
      refine iff_of_false (not_recovers_silent (text key) fun h => ?_) fun h => h hne (.inl hheight)
      rw [DB.slot_put, if_pos rfl] at h
      obtain ⟨hdata, -⟩ := h
      rw [hz] at hdata
      cases hdata with
      | some hsame =>
          have hlookup := congrArg (Finmap.lookup (text field)) hsame.1
          rw [Finmap.lookup_insert, hold] at hlookup
          exact hne (Option.some.inj hlookup)
    · rw [if_neg hheight] at hlogged ⊢
      rw [hlogged (by simp)]
      by_cases hheight' : SkipList.maxLevel < ch.height 0
      · rw [if_pos hheight']
        refine iff_of_false ?_ fun h => h hne (.inr hheight')
        rintro ⟨-, hnodes⟩
        have hlength := congrArg List.length hnodes
        rw [List.length_map, List.length_map, ZSet.length_insertNode] at hlength
        exact absurd hlength (Nat.succ_ne_self _)
      · rw [if_neg hheight']
        exact iff_of_true ⟨rfl, ZSet.insertNode_heights _ _ _ _ _⟩ fun _ h => h.elim hheight hheight'

theorem execZIncrBy_logged_iff (hfresh : NoneExpired env w)
    (harity : validateArity 4 (cmdLine3 "zincrby" args) = true) :
    Logged env ch (execZIncrBy env args) w ↔ ¬ ZIncrByLoses env ch w args := by
  rcases args with _ | ⟨key, _ | ⟨rawDelta, _ | ⟨field, rest⟩⟩⟩
  · exact iff_of_true .panics (by simp [ZIncrByLoses])
  · exact iff_of_true .panics (by simp [ZIncrByLoses])
  · exact iff_of_true .panics (by simp [ZIncrByLoses])
  cases hdelta : env.lib.parseFloat (text rawDelta) with
  | none =>
      rw [execZIncrBy, hdelta]
      apply iff_of_true (.pure _)
      rintro ⟨key', rawDelta', field', rest', delta, heq, hparse, -⟩
      cases heq
      rw [hdelta] at hparse
      cases hparse
  | some delta =>
      by_cases hthere : ∃ z old, (w.db.slot (text key)).data = some (.zset z) ∧
          z.dict.lookup (text field) = some old
      · obtain ⟨z, old, hz, hold⟩ := hthere
        rw [execZIncrBy_there_logged_iff hfresh harity hdelta hz hold]
        constructor
        · rintro h ⟨key', rawDelta', field', rest', delta', heq, hparse, hgone | ⟨z', old', hz', hold', hne, hheight⟩⟩
          · cases heq
            rw [Absent, hz] at hgone
            cases hgone
          · cases heq
            obtain rfl := Option.some.inj (hdelta.symm.trans hparse)
            obtain rfl := Entity.zset.inj (Option.some.inj (hz.symm.trans hz'))
            obtain rfl := Option.some.inj (hold.symm.trans hold')
            exact h hne hheight
        · exact fun h hne hheight =>
            h ⟨key, rawDelta, field, rest, delta, rfl, hdelta, .inr ⟨z, old, hz, hold, hne, hheight⟩⟩
      · have hloses : ZIncrByLoses env ch w (key :: rawDelta :: field :: rest) ↔ Absent w (text key) := by
          constructor
          · rintro ⟨key', rawDelta', field', rest', delta', heq, hparse, hgone | ⟨z, old, hz, hold, -⟩⟩
            · cases heq
              exact hgone
            · cases heq
              exact absurd ⟨z, old, hz, hold⟩ hthere
          · exact fun hgone => ⟨key, rawDelta, field, rest, delta, rfl, hdelta, .inl hgone⟩
        rw [hloses, execZIncrBy, hdelta]
        dsimp only
        refine (Logged.getOrInit_iff .zset (fun _ _ => asSortedSet_eq) (fun _ => rfl) hfresh fun _ => rfl).trans ?_
        constructor
        · intro h hgone
          exact not_recovers_silent (text key) (by
            rw [DB.slot_put, if_pos rfl]
            rintro ⟨hdata, -⟩
            rw [hgone] at hdata
            cases hdata) (h.2 hgone)
        · intro hgone
          refine ⟨fun z hz => ?_, fun h => absurd h hgone⟩
          cases hold : z.dict.lookup (text field) with
          | none =>
              simp only [ZSet.get, hold]
              exact .panics
          | some old => exact absurd ⟨z, old, hz, hold⟩ hthere

end

end Traitor.Database
