import Traitor.ListSizes
import Traitor.ReplayCommands

namespace Traitor.Database

open Lib.Effects Lib.Strconv Protocol

variable {σ : Type} {env : Env σ} {w w' w'' : World σ} {key : Bytes} {args : List Slice}

/-- Every value and every time to live is as before, but for expired keys. -/
def Kept (env : Env σ) (w w' : World σ) : Prop :=
  ∀ key, w.db.SameAt w'.db key ∨ w.db.Evicted env w'.db key

def Failed (r : Option Reply) : Prop := isErrorReply (r.getD .unknownErr) = true

def Clean (env : Env σ) (m : Exec σ Reply) (w : World σ) : Prop :=
  wp m (fun r w' => Failed r → Kept env w w') w

theorem Kept.refl (env : Env σ) (w : World σ) : Kept env w w := fun _ => .inl ⟨rfl, rfl⟩

theorem Kept.of_quiet (h : Quiet env w w') : Kept env w w' := h.2.2

theorem kept_evict (env : Env σ) (w : World σ) (key : Bytes) :
    Kept env w { w with db := w.db.evict env key } := (w.db.keeps_evict key).2

/-- A key that was not there is there now. -/
theorem not_kept_created {e : Entity σ} (hlive : w.db.live env key = none)
    (hdata : w'.db.data.lookup key = some e)
    (httl : w'.db.ttlMap.lookup key = (w.db.evict env key).ttlMap.lookup key) : ¬ Kept env w w' := by
  intro h
  rcases h key with hsame | hout
  · rw [hsame.1] at hdata
    have hexpired : w.db.isExpired env key := by
      by_contra hne
      rw [DB.live, if_neg hne, hdata] at hlive
      cases hlive
    rw [hsame.2, DB.evict, if_pos ⟨by simp [hdata], hexpired⟩, DB.remove, Finmap.lookup_erase] at httl
    simp [DB.isExpired, httl] at hexpired
  · rw [hout.2.1] at hdata
    cases hdata

/-- A key that was there has another value now. -/
theorem not_kept_changed {e e' : Entity σ} (hlive : w.db.live env key = some e)
    (hdata : w'.db.data.lookup key = some e') (hne : e' ≠ e) : ¬ Kept env w w' := by
  intro h
  rcases h key with hsame | hout
  · rw [hsame.1, (Slot.live_data (DB.live_slot w.db key ▸ hlive) : w.db.data.lookup key = some e)] at hdata
    cases hdata
    exact hne rfl
  · rw [hout.2.1] at hdata
    cases hdata

section

variable {α : Type} {view : Entity σ → Option α} (entity : α → Entity σ)
  (hview : ∀ e a, view e = some a → e = entity a) (hentity : ∀ a, view (entity a) = some a)
  {Q : Option Reply → World σ → Prop}
include hview hentity

/-- A look at a key either finds the value, or is answered at once, or finds nothing. -/
theorem wp_getAs_iff {f : Except Reply (Option α) → Exec σ Reply} (herror : ∀ e, f (.error e) = return e)
    (hlook : ∀ reply, Q (some reply) { w with db := w.db.evict env key }) :
    wp (getAs env view key >>= f) Q w ↔
      (∀ a, w.db.live env key = some (entity a) → wp (f (.ok (some a))) Q w) ∧
      (w.db.live env key = none → wp (f (.ok none)) Q { w with db := w.db.evict env key }) := by
  rw [wp_bind, wp_getAs, DB.view]
  cases hlive : w.db.live env key with
  | none => simp
  | some e =>
      have hevict : w.db.evict env key = w.db := DB.evict_of_live hlive
      rw [hevict] at hlook
      simp only [reduceCtorEq, false_imp_iff, and_true]
      rw [hevict]
      cases hv : view e with
      | none =>
          simp only [herror, wp_pure]
          apply iff_of_true (hlook _)
          intro a ha
          cases ha
          rw [hentity] at hv
          cases hv
      | some a =>
          obtain rfl := hview e a hv
          refine ⟨fun h b hb => ?_, fun h => h a rfl⟩
          cases hentity a ▸ hentity b ▸ congrArg view (Option.some.inj hb)
          exact h

theorem wp_getOrInit_iff {make : α} {f : Except Reply α → Exec σ Reply}
    (herror : ∀ e, f (.error e) = return e)
    (hlook : ∀ reply, Q (some reply) { w with db := w.db.evict env key }) :
    wp (getOrInit env view entity make key >>= f) Q w ↔
      (∀ a, w.db.live env key = some (entity a) → wp (f (.ok a)) Q w) ∧
      (w.db.live env key = none →
        wp (f (.ok make)) Q { w with db := (w.db.evict env key).put key (entity make) }) := by
  rw [getOrInit, bind_assoc]
  refine (wp_getAs_iff entity hview hentity (fun e => ?_) hlook).trans ?_
  · exact (pure_bind _ _).trans (herror e)
  · simp [putEntity]

end

namespace Clean

theorem of_journals {kind : List CmdLine → Prop} {m : Exec σ Reply} (h : Journals env kind m) :
    Clean env m w := by
  apply wp_mono (h w)
  intro r w' hr hfailed
  rcases hr with hquiet | ⟨reply, lines, rfl, hreply, -⟩
  · exact .of_quiet hquiet
  · rw [Failed, Option.getD_some, hreply] at hfailed
    cases hfailed

theorem of_moves {m : Exec σ Reply} (h : Moves (Quiet env) m) : Clean env m w :=
  .of_journals (.of_moves h : Journals env (fun _ => True) m)

/-- The value is looked at when the key is there. -/
theorem getAs_iff {α : Type} {view : Entity σ → Option α} (entity : α → Entity σ)
    (hview : ∀ e a, view e = some a → e = entity a) (hentity : ∀ a, view (entity a) = some a)
    {f : Except Reply (Option α) → Exec σ Reply} (herror : ∀ e, f (.error e) = return e)
    {reply : Reply} (hnone : f (.ok none) = return reply) :
    Clean env (getAs env view key >>= f) w ↔
      ∀ a, w.db.live env key = some (entity a) → Clean env (f (.ok (some a))) w := by
  refine (wp_getAs_iff entity hview hentity herror fun _ _ => kept_evict env w key).trans ?_
  rw [hnone, wp_pure]
  exact and_iff_left fun _ _ => kept_evict env w key

/-- A key that is not there gets a new container first. -/
theorem getOrInit_iff {α : Type} {view : Entity σ → Option α} (entity : α → Entity σ) {make : α}
    (hview : ∀ e a, view e = some a → e = entity a) (hentity : ∀ a, view (entity a) = some a)
    {f : Except Reply α → Exec σ Reply} (herror : ∀ e, f (.error e) = return e) :
    Clean env (getOrInit env view entity make key >>= f) w ↔
      (∀ a, w.db.live env key = some (entity a) → Clean env (f (.ok a)) w) ∧
      (w.db.live env key = none → wp (f (.ok make)) (fun r w' => Failed r → Kept env w w')
        { w with db := (w.db.evict env key).put key (entity make) }) :=
  wp_getOrInit_iff entity hview hentity herror fun _ _ => kept_evict env w key

end Clean

/-- The commands that answer no error once they have changed something. -/
def Careful (env : Env σ) (m : Exec σ Reply) : Prop := Journals env (fun _ => True) m

section

variable (env) (args)

theorem silent_putByPolicy (policy : Policy) (key : Bytes) (e : Entity σ) :
    Silent (putByPolicy policy key e) := by
  cases policy with
  | upsert => exact .bind (.modifyDB _) fun _ => .pure _
  | insert =>
      refine .bind (.map .get) fun b => ?_
      split
      · exact .pure _
      · exact .bind (.modifyDB _) fun _ => .pure _
  | update =>
      refine .bind (.map .get) fun b => ?_
      split
      · exact .bind (.modifyDB _) fun _ => .pure _
      · exact .pure _

theorem execSet_careful : Careful env (execSet env args) := by
  unfold execSet
  split
  · split
    · exact .pure _
    · refine .of_commits (.bind (silent_putByPolicy _ _ _) fun n => ?_)
      split
      · split
        · exact .put _ (.log (.log (.pure rfl trivial)))
        · exact .put _ (.log (.pure rfl trivial))
      · exact .pure rfl trivial
  · exact .panics

theorem setWithTTL_careful (unit : Int) : Careful env (setWithTTL env unit args) := by
  unfold setWithTTL
  split
  · split
    · exact .pure _
    · split
      · exact .pure _
      · exact .of_commits (.put _ (.put _ (.log (.log (.pure rfl trivial)))))
  · exact .panics

theorem execSetBit_careful : Careful env (execSetBit env args) := by
  unfold execSetBit
  split
  · split
    · exact .pure _
    · split
      · exact .pure _
      · refine .bind (getAsString_moves env _) fun r => ?_
        split
        · exact .pure _
        · split
          · exact .of_commits (.put _ (.pure rfl trivial))
          · exact .panics
  · exact .panics

theorem expireCommand_careful (instant : Int → Int) : Careful env (expireCommand env instant args) := by
  unfold expireCommand
  split
  · split
    · exact .pure _
    · refine .bind (getEntity_moves env _) fun r => ?_
      split
      · exact .pure _
      · exact .of_commits (.put _ (.log (.pure rfl trivial)))
  · exact .panics

theorem execHIncrByFloat_careful : Careful env (execHIncrByFloat env args) := by
  unfold execHIncrByFloat
  split
  · split
    · exact .pure _
    · refine .getOrInit (fun e => .pure e) (fun d => ?_) ?_
      · dsimp only
        split
        · exact .of_commits (.put _ (.pure (by simp) trivial))
        · exact .panics
        · split
          · exact .pure _
          · exact .of_commits (.put _ (.log (.pure (by simp) trivial)))
      · simp only [Finmap.lookup_empty]
        exact .put _ (.pure (by simp) trivial)
  · exact .panics

theorem silent_remove (key : Bytes) : Silent (remove key : Exec σ PUnit) := .modifyDB _

theorem commits_logged {logs : Prop} [Decidable logs] {line : CmdLine} {reply : Reply}
    (h : isErrorReply reply = false) : Commits (σ := σ) (fun _ => True) (do
      if logs then addAof line
      return reply) := by
  dsimp only
  split
  · exact .log (.pure h trivial)
  · exact .pure h trivial

/-- The end of the commands that take elements out of a container. -/
theorem commits_shrunk {gone logs : Prop} [Decidable gone] [Decidable logs] {key : Bytes}
    {line : CmdLine} {n : Int} : Commits (σ := σ) (fun _ => True) (do
      if gone then remove key
      if logs then addAof line
      return .int n) := by
  dsimp only
  split
  · exact .bind (silent_remove _) fun _ => commits_logged rfl
  · exact commits_logged rfl

theorem execHDel_careful : Careful env (execHDel env args) := by
  unfold execHDel
  split
  · refine .bind (getAs_moves env _ _) fun r => ?_
    split
    · exact .pure _
    · exact .pure _
    · exact .of_commits (.put _ commits_shrunk)
  · exact .panics

theorem execSRem_careful : Careful env (execSRem env args) := by
  unfold execSRem
  split
  · refine .bind (getAs_moves env _ _) fun r => ?_
    split
    · exact .pure _
    · exact .pure _
    · exact .of_commits (.put _ commits_shrunk)
  · exact .panics

theorem popMembers_careful (key : Slice) : Careful env (popMembers env key args) := by
  rw [popMembers]
  refine .bind (getAs_moves env _ _) fun r => ?_
  split
  · exact .pure _
  · exact .pure _
  · split
    · exact .pure _
    · dsimp only
      split
      · exact .panics
      · exact .of_commits (.put _ (commits_logged rfl))

theorem execSPop_careful : Careful env (execSPop env args) := by
  unfold execSPop
  split
  · exact popMembers_careful env _ _
  · exact popMembers_careful env _ _
  · exact .pure _

theorem commits_storeSet (name : String) (dest : Slice) (keys : List Slice) (result : Finset Bytes) :
    Commits (fun _ => True) (storeSet env name dest keys result) :=
  .put _ (.log (.pure rfl trivial))

theorem execSInterStore_careful : Careful env (execSInterStore env args) := by
  unfold execSInterStore
  split
  · refine .bind (interLoop_moves env _ _) fun r => ?_
    split
    · exact .pure _
    · exact .of_commits (.bind (silent_remove _) fun _ => .pure rfl trivial)
    · exact .panics
    · exact .of_commits (commits_storeSet env _ _ _ _)
  · exact .panics

theorem execSUnionStore_careful : Careful env (execSUnionStore env args) := by
  unfold execSUnionStore
  split
  · refine .bind (unionLoop_moves env _ _) fun r => ?_
    split
    · exact .pure _
    · exact .of_commits (.bind (silent_remove _) fun _ => .pure rfl trivial)
    · exact .of_commits (.bind (silent_remove _) fun _ => .pure rfl trivial)
    · exact .of_commits (.bind (silent_remove _) fun _ => commits_storeSet env _ _ _ _)
  · exact .panics

theorem execSDiffStore_careful : Careful env (execSDiffStore env args) := by
  unfold execSDiffStore
  split
  · refine .bind (diffLoop_moves env _ _ _) fun r => ?_
    split
    · exact .pure _
    · exact .of_commits (.bind (silent_remove _) fun _ => .pure rfl trivial)
    · exact .of_commits (.bind (silent_remove _) fun _ => .pure rfl trivial)
    · exact .of_commits (commits_storeSet env _ _ _ _)
  · exact .panics

end

section

variable (env) (w) (args)

/-- `PERSIST` comes before an option that is in error, and the key has a time to live. -/
def GetEXSpoils : Prop :=
  ∃ key options s e, args = key :: options ∧ w.db.live env (text key) = some (.str (some s)) ∧
    w.db.ttlMap.lookup (text key) ≠ none ∧ getExParse unlimitedTTL options = (true, .error e)

/-- There is no page to take the last element from. -/
def RPopSpoils : Prop :=
  ∃ key rest l, args = key :: rest ∧ w.db.live env (text key) = some (.list l) ∧ l.size ≠ 0 ∧
    l.list.data = []

def RPopLPushSpoils : Prop :=
  ∃ source dest rest l, args = source :: dest :: rest ∧
    w.db.live env (text source) = some (.list l) ∧ l.size ≠ 0 ∧
    (w.db.live env (text dest) = none ∧ l.list.data = [] ∨
      ∃ d, w.db.live env (text dest) = some (.list d) ∧ (l.list.data = [] ∨ d.size < 0))

/-- The pass of a removal by value panics on the page that it has taken away. -/
def LosesPage (l : StoredList Slice) (value : Slice) (count : Int) : Prop :=
  if 0 ≤ count then l.list.Strands (fun a => a = value) count
  else l.list.StrandsBack (fun a => a = value) (wrap64 (-count))

def LRemSpoils : Prop :=
  ∃ key rawCount value rest count l, args = key :: rawCount :: value :: rest ∧
    parseInt 64 (text rawCount) = some count ∧ w.db.live env (text key) = some (.list l) ∧
    0 < l.size ∧ LosesPage l value count

end

/-- What the elements make of the set when one of them has a node that is too high. -/
def ZSet.brokenBy [LinearOrder σ] (c : Choices) (z : ZSet σ) (i : Nat) : List (Bytes × σ) → Option (ZSet σ)
  | [] => none
  | (member, score) :: elements =>
      match z.add member score (c.height i) with
      | (z, none) => some z
      | (z, some _) => z.brokenBy c (i + 1) elements

section

variable [LinearOrder σ] [Inhabited σ] (env) (w) (args)

def ZAddSpoils : Prop :=
  ∃ key rest elements, args = key :: rest ∧ rest.length % 2 = 0 ∧
    parseElements env rest = some elements ∧
    (w.db.live env (text key) = none ∧ ZSet.make.brokenBy env.choices 0 elements ≠ none ∨
      ∃ z z', w.db.live env (text key) = some (.zset z) ∧
        z.brokenBy env.choices 0 elements = some z' ∧ z' ≠ z)

/-- The member of a set that is not there has no score, and the one of another set a node that is
too high. -/
def ZIncrBySpoils : Prop :=
  ∃ key rawDelta field rest delta, args = key :: rawDelta :: field :: rest ∧
    env.lib.parseFloat (text rawDelta) = some delta ∧
    (w.db.live env (text key) = none ∨
      ∃ z old, w.db.live env (text key) = some (.zset z) ∧ z.dict.lookup (text field) = some old ∧
        SkipList.maxLevel < env.choices.height 0 ∧ env.lib.addFloat old delta ≠ old)

def Spoils : CommandName → Prop
  | .getEX => GetEXSpoils env w args
  | .rPop => RPopSpoils env w args
  | .rPopLPush => RPopLPushSpoils env w args
  | .lRem => LRemSpoils env w args
  | .zAdd => ZAddSpoils env w args
  | .zIncrBy => ZIncrBySpoils env w args
  | _ => False

end

theorem failed_none : Failed none := rfl

theorem not_failed {reply : Reply} (h : isErrorReply reply = false) : ¬ Failed (some reply) := by
  simp [Failed, h]

theorem Commits.done {kind : List CmdLine → Prop} {m : Exec σ Reply} (h : Commits kind m) {u u' : World σ}
    (haof : u'.aof = u.aof) : wp m (fun r w' => Done kind u r w') u' := by
  apply wp_mono (h u')
  intro r w' hdone
  rwa [Done, haof] at hdone

theorem wp_of_commits {m : Exec σ Reply} (h : Commits (fun _ => True) m) (w u : World σ) :
    wp m (fun r w' => Failed r → Kept env w w') u := by
  refine wp_mono (h u) fun r w' ⟨reply, lines, hr, hreply, _⟩ hfailed => ?_
  subst hr
  exact absurd hfailed (not_failed hreply)

theorem ttlArg_error {name : String} {ttl : Int} {arg : Slice} {e : Reply}
    (h : ttlArg name ttl arg = .error e) : isErrorReply e = true := by
  rw [ttlArg] at h
  split at h
  · cases h
    rfl
  · split at h
    · cases h
      rfl
    · split at h
      · cases h
        rfl
      · cases h

theorem getExParse_error {ttl : Int} {options : List Slice} {e : Reply}
    (h : (getExParse ttl options).2 = .error e) : isErrorReply e = true := by
  fun_induction getExParse ttl options with
  | case1 => cases h
  | case2 | case5 | case8 =>
      cases h
      rfl
  | case3 ttl arg name hex n rest e' he | case6 ttl arg name hex hpx n rest e' he =>
      cases h
      exact ttlArg_error he
  | case4 _ _ _ _ _ _ _ _ ih | case7 _ _ _ _ _ _ _ _ _ ih | case9 _ _ _ _ _ _ _ _ ih
  | case10 _ _ _ _ _ _ _ ih => exact ih h

theorem Slot.string_eq_some {s : Slot σ} {t : Int} {v : Bytes} :
    s.string t = .ok (some v) ↔ s.live t = some (.str (some v)) := by
  rw [Slot.string]
  cases s.live t with
  | none => simp
  | some e => cases e <;> simp [Entity.asString]

theorem kept_persist_iff {e : Entity σ} (hlive : w.db.live env key = some e) :
    Kept env w { w with db := w.db.persist key } ↔ w.db.ttlMap.lookup key = none := by
  have hdata : w.db.data.lookup key = some e := Slot.live_data (DB.live_slot w.db key ▸ hlive)
  constructor
  · intro h
    rcases h key with hsame | hout
    · rw [← hsame.2, DB.persist, Finmap.lookup_erase]
    · have hgone := hout.2.1
      rw [DB.persist, hdata] at hgone
      cases hgone
  · refine fun httl k => .inl ⟨rfl, ?_⟩
    by_cases hk : k = key
    · rw [hk, httl, DB.persist, Finmap.lookup_erase]
    · rw [DB.persist, Finmap.lookup_erase_ne hk]

theorem execGetEX_clean_iff : Clean env (execGetEX env args) w ↔ ¬ GetEXSpoils env w args := by
  rcases args with _ | ⟨key, options⟩
  · exact iff_of_true (.of_moves .panics) (by simp [GetEXSpoils])
  · have hspoils : GetEXSpoils env w (key :: options) ↔ ∃ s e,
        (w.db.slot (text key)).string env.now = .ok (some s) ∧
        w.db.ttlMap.lookup (text key) ≠ none ∧ getExParse unlimitedTTL options = (true, .error e) := by
      simp only [Slot.string_eq_some, ← DB.live_slot]
      constructor
      · rintro ⟨key', options', s, e, heq, h⟩
        cases heq
        exact ⟨s, e, h⟩
      · rintro ⟨s, e, h⟩
        exact ⟨key, options, s, e, rfl, h⟩
    simp only [hspoils, Clean, execGetEX, wp_bind, wp_getAsString]
    cases hs : (w.db.slot (text key)).string env.now with
    | error e => simp [kept_evict]
    | ok o =>
        cases o with
        | none => simp [kept_evict]
        | some s =>
            have hlive : w.db.live env (text key) = some (.str (some s)) := by
              rw [DB.live_slot, Slot.string_eq_some.mp hs]
            simp only [wp_bind, wp_getExOptions, DB.evict_of_live hlive]
            rcases hp : getExParse unlimitedTTL options with ⟨persisted, result⟩
            cases result with
            | error e =>
                have hfailed : Failed (some e) := getExParse_error (congrArg Prod.snd hp)
                cases persisted with
                | false => simp [Kept.refl]
                | true => simp [hfailed, kept_persist_iff hlive]
            | ok ttl =>
                refine iff_of_true ?_ (by simp)
                dsimp only
                refine wp_of_commits ?_ w _
                split
                · exact .pure (by simp) trivial
                · split
                  · exact .put _ (.log (.pure (by simp) trivial))
                  · exact .put _ (.log (.pure (by simp) trivial))

theorem kept_put_iff {e e' : Entity σ} (hlive : w.db.live env key = some e) :
    Kept env w { w with db := w.db.put key e' } ↔ e' = e := by
  constructor
  · intro h
    by_contra hne
    exact not_kept_changed hlive (by rw [lookup_put, if_pos rfl]) hne h
  · rintro rfl
    exact .of_quiet ⟨rfl, DB.keeps_put (Slot.live_data (DB.live_slot w.db key ▸ hlive))⟩

theorem not_kept_list {l l' : StoredList Slice} (hlive : w.db.live env key = some (.list l))
    (hdata : w'.db.data.lookup key = some (.list l')) (hsize : l'.size ≠ l.size) : ¬ Kept env w w' := by
  apply not_kept_changed hlive hdata
  intro heq
  cases heq
  exact hsize rfl

theorem wp_popLast {l : StoredList Slice} {f : StoredList Slice × Slice → Exec σ Reply}
    (Q : Option Reply → World σ → Prop) (u : World σ) :
    wp (popLast key l >>= f) Q u ↔
      (l.removeLast.2 = none → Q none { u with db := u.db.put key (.list l.removeLast.1) }) ∧
      ∀ val, l.removeLast.2 = some val →
        wp (f (l.removeLast.1, val.join)) Q { u with db := u.db.put key (.list l.removeLast.1) } := by
  rcases hr : l.removeLast with ⟨l', val⟩
  simp only [popLast, hr, setList, putEntity, wp_bind, wp_modifyDB]
  cases val with
  | none => simp
  | some val => simp

theorem execRPop_clean_iff : Clean env (execRPop env args) w ↔ ¬ RPopSpoils env w args := by
  rcases args with _ | ⟨key, rest⟩
  · exact iff_of_true (.of_moves .panics) (by simp [RPopSpoils])
  · refine Iff.trans (Clean.getAs_iff .list (fun _ _ => asList_eq) (fun _ => rfl)
      (fun _ => rfl) rfl) ?_
    refine (forall₂_congr (q := fun l _ => ¬ (l.size ≠ 0 ∧ l.list.data = [])) fun l hlive => ?_).trans ?_
    · rw [Clean, wp_popLast, and_iff_left fun val _ => wp_of_commits
        (.bind (silent_removeEmpty _ _) fun _ => .log (.pure (by simp) trivial)) w _]
      by_cases hzero : l.size = 0
      · simp [StoredList.removeLast_zero hzero, hzero]
      · obtain ⟨hsize, hnone⟩ := StoredList.removeLast_spec hzero
        have hne {v : List CmdLine} : ¬ Kept env w
            ⟨w.db.put (text key) (.list l.removeLast.1), v⟩ :=
          not_kept_list hlive (by rw [lookup_put, if_pos rfl]) (by omega)
        rw [hnone]
        simp [hzero, failed_none, hne]
    · refine ⟨?_, fun h l hlive hs => h ⟨key, rest, l, rfl, hlive, hs⟩⟩
      rintro h ⟨key', rest', l, heq, hlive, hs⟩
      cases heq
      exact h l hlive hs

theorem removeByCount_of_size_le {l : StoredList Slice} (h : l.size ≤ 0) (value : Slice) (count : Int) :
    (removeByCount l value count).1 = l := by
  have hsize : l.list.size ≤ 0 := h
  have hfind {index : Int} : l.list.find index = none := by
    rw [QuickList.find, if_pos (by omega)]
  apply StoredList.eq_of_list
  rw [removeByCount]
  split
  · simp [StoredList.removeAllByVal, QuickList.removeAllByVal, hfind]
  · split
    · simp only [StoredList.removeByVal, QuickList.removeByVal, hfind]
      split <;> rfl
    · simp only [StoredList.reverseRemoveByVal, QuickList.reverseRemoveByVal, hfind]
      split <;> rfl

/-- A removal that panics has taken elements away. -/
theorem removeByCount_none_iff {l : StoredList Slice} (value : Slice) (count : Int)
    (hpos : 0 < l.size) :
    ((removeByCount l value count).2 = none ↔ LosesPage l value count) ∧
      (LosesPage l value count → (removeByCount l value count).1.size < l.size) := by
  rw [LosesPage, removeByCount]
  by_cases hzero : count = 0
  · subst hzero
    have heq := QuickList.removeAllByVal_eq hpos (fun a => a = value)
    rw [if_pos rfl, if_pos le_rfl]
    simp only [StoredList.removeAllByVal, heq]
    exact ⟨QuickList.removeByVal_none_iff l.wellFormed hpos,
      QuickList.Strands.size_lt l.wellFormed hpos⟩
  · rw [if_neg hzero]
    by_cases hcount : 0 < count
    · rw [if_pos hcount, if_pos hcount.le]
      exact ⟨QuickList.removeByVal_none_iff l.wellFormed hpos,
        QuickList.Strands.size_lt l.wellFormed hpos⟩
    · rw [if_neg hcount, if_neg (by omega)]
      exact ⟨QuickList.reverseRemoveByVal_none_iff l.wellFormed hpos,
        QuickList.StrandsBack.size_lt l.wellFormed hpos⟩

theorem execLRem_clean_iff : Clean env (execLRem env args) w ↔ ¬ LRemSpoils env w args := by
  unfold execLRem
  split
  · next key rawCount value rest =>
      cases hcount : parseInt 64 (text rawCount) with
      | none =>
          apply iff_of_true (.of_moves (.pure _))
          rintro ⟨key', rawCount', value', rest', count, l, heq, hp, -⟩
          cases heq
          rw [hcount] at hp
          cases hp
      | some count =>
          refine Iff.trans (Clean.getAs_iff .list (fun _ _ => asList_eq) (fun _ => rfl)
            (fun _ => rfl) rfl) ?_
          refine (forall₂_congr (q := fun l _ => ¬ (0 < l.size ∧ LosesPage l value count))
            fun l hlive => ?_).trans ?_
          · dsimp only
            rcases hr : removeByCount l value count with ⟨l', removed⟩
            simp only [Clean, setList, putEntity, wp_bind, wp_modifyDB]
            cases removed with
            | some n =>
                refine iff_of_true (wp_of_commits ?_ w _) ?_
                · refine .bind (silent_removeEmpty _ _) fun _ => ?_
                  split
                  · exact .log (.pure rfl trivial)
                  · exact .pure rfl trivial
                · rintro ⟨hpos, hlost⟩
                  have hnone := (removeByCount_none_iff value count hpos).1.mpr hlost
                  rw [hr] at hnone
                  cases hnone
            | none =>
                simp only [wp_panics, failed_none, forall_const]
                by_cases hpos : 0 < l.size
                · obtain ⟨hiff, hlt⟩ := removeByCount_none_iff value count hpos
                  have hlost := hiff.mp (congrArg Prod.snd hr)
                  have hsize := hlt hlost
                  rw [hr] at hsize
                  dsimp only at hsize
                  refine iff_of_false ?_ (not_not.mpr ⟨hpos, hlost⟩)
                  exact not_kept_list hlive (by rw [lookup_put, if_pos rfl]) (by omega)
                · have hsame := removeByCount_of_size_le (not_lt.mp hpos) value count
                  rw [hr] at hsame
                  subst hsame
                  refine iff_of_true (.of_quiet ⟨rfl, DB.keeps_put ?_⟩) fun h => hpos h.1
                  exact Slot.live_data (DB.live_slot w.db (text key) ▸ hlive)
          · refine ⟨?_, fun h l hlive hs =>
              h ⟨key, rawCount, value, rest, count, l, rfl, hcount, hlive, hs⟩⟩
            rintro h ⟨key', rawCount', value', rest', count', l, heq, hp, hlive, hs⟩
            cases heq
            obtain rfl := Option.some.inj (hcount.symm.trans hp)
            exact h l hlive hs
  · next hargs =>
      apply iff_of_true (.of_moves .panics)
      rintro ⟨key, rawCount, value, rest, count, l, heq, -⟩
      exact hargs _ _ _ _ heq

theorem silent_currentList (key : Bytes) (l : StoredList Slice) :
    Silent (currentList key l : Exec σ (StoredList Slice)) := .map .get

def moveLast (env : Env σ) (source dest : Bytes) (line : CmdLine) (l d : StoredList Slice) : Exec σ Reply := do
  let (sourceList, val) ← popLast source l
  let destList ← currentList dest d
  match destList.insert env.lib.grow 0 val with
  | none => panics
  | some destList =>
      setList dest destList
      let sourceList ← currentList source sourceList
      removeEmpty source sourceList
      addAof line
      return .bulk val

/-- It panics when there is nothing to take, or nowhere to put it. -/
def MoveFails (source dest : Bytes) (l d : StoredList Slice) : Prop :=
  l.removeLast.2 = none ∨ (if dest = source then l.removeLast.1 else d).size < 0

section

variable {source dest : Bytes} {l d : StoredList Slice} {line : CmdLine} {u : World σ}
  (hdest : u.db.data.lookup dest = some (.list d))
include hdest

theorem currentList_put : (((u.db.put source (.list l.removeLast.1)).data.lookup dest).bind
    Entity.asList).getD d = if dest = source then l.removeLast.1 else d := by
  rw [lookup_put]
  split
  · rfl
  · rw [hdest]
    rfl

theorem moveLast_fails (h : MoveFails source dest l d) :
    wp (moveLast env source dest line l d) (fun r w' =>
      r = none ∧ w' = { u with db := u.db.put source (.list l.removeLast.1) }) u := by
  rw [moveLast, wp_popLast]
  refine ⟨fun _ => ⟨rfl, rfl⟩, fun val hval => ?_⟩
  have hneg : (if dest = source then l.removeLast.1 else d).size < 0 := h.resolve_left (by simp [hval])
  simp only [currentList, wp_bind, wp_get, wp_pure, currentList_put hdest,
    StoredList.insert_front_none hneg, wp_panics, and_self]

theorem moveLast_works {kind : List CmdLine → Prop} (hkind : kind [line]) (h : ¬ MoveFails source dest l d) :
    wp (moveLast env source dest line l d) (fun r w' => Done kind u r w') u := by
  rw [moveLast, wp_popLast]
  refine ⟨fun hnone => absurd (.inl hnone) h, fun val _ => ?_⟩
  obtain ⟨d', hinsert, -⟩ := StoredList.insert_front (not_lt.mp fun hneg => h (.inr hneg)) env.lib.grow val.join
  simp only [currentList, wp_bind, wp_get, wp_pure, currentList_put hdest]
  rw [hinsert]
  refine Commits.done ?_ rfl
  exact .put _ (.bind (silent_currentList _ _) fun _ =>
    .bind (silent_removeEmpty _ _) fun _ => .log (.pure (by simp) hkind))

theorem moveLast_clean_iff (line : CmdLine) : wp (moveLast env source dest line l d) (fun r w' => Failed r → Kept env w w') u ↔
    (MoveFails source dest l d →
      Kept env w { u with db := u.db.put source (.list l.removeLast.1) }) := by
  by_cases h : MoveFails source dest l d
  · rw [wp_of_run (moveLast_fails hdest h)]
    simp [failed_none, h]
  · have hworks : wp (moveLast env source dest line l d) (fun r w' => Done (fun _ => True) u r w') u :=
      moveLast_works hdest trivial h
    refine iff_of_true (wp_mono hworks fun r w' hdone => ?_) fun hfails => absurd hfails h
    obtain ⟨reply, lines, rfl, hreply, -⟩ := hdone
    exact fun hfailed => absurd hfailed (not_failed hreply)

end

theorem moveFails_iff {source dest : Bytes} {l d : StoredList Slice} (hd : dest = source → d = l)
    (hsize : l.size ≠ 0) : MoveFails source dest l d ↔ l.list.data = [] ∨ d.size < 0 := by
  obtain ⟨hless, hnone⟩ := StoredList.removeLast_spec hsize
  have hneg : (if dest = source then l.removeLast.1 else d).size < 0 ↔ d.size < 0 := by
    split
    · next hsame =>
        rw [hd hsame]
        omega
    · rfl
  rw [MoveFails, hnone, hneg]

theorem moveLast_spoils_iff {source dest : Bytes} {l d : StoredList Slice} {u : World σ}
    (hlive : w.db.live env source = some (.list l)) (hd : dest = source → d = l)
    (hu : u = w ∨ 0 ≤ d.size) :
    (MoveFails source dest l d →
        Kept env w { u with db := u.db.put source (.list l.removeLast.1) }) ↔
      ¬ (l.size ≠ 0 ∧ (l.list.data = [] ∨ d.size < 0)) := by
  by_cases hzero : l.size = 0
  · refine iff_of_true (fun h => ?_) fun h => h.1 hzero
    have hdata : w.db.data.lookup source = some (.list l) :=
      Slot.live_data (DB.live_slot w.db source ▸ hlive)
    rw [MoveFails, StoredList.removeLast_zero hzero] at h
    rw [StoredList.removeLast_zero hzero]
    dsimp only at h ⊢
    rcases hu with rfl | hpos
    · exact .of_quiet ⟨rfl, DB.keeps_put hdata⟩
    · split at h
      · simp [hzero] at h
      · simp at h
        omega
  · obtain ⟨hsize, -⟩ := StoredList.removeLast_spec hzero
    have hne : ¬ Kept env w { u with db := u.db.put source (.list l.removeLast.1) } :=
      not_kept_list hlive (by rw [lookup_put, if_pos rfl]) (by omega)
    simp only [hne, imp_false, moveFails_iff hd hzero, ne_eq, hzero, not_false_eq_true, true_and]

theorem execRPopLPush_clean_iff :
    Clean env (execRPopLPush env args) w ↔ ¬ RPopLPushSpoils env w args := by
  unfold execRPopLPush
  split
  · next source dest rest =>
      refine Iff.trans (Clean.getAs_iff .list (fun _ _ => asList_eq) (fun _ => rfl)
        (fun _ => rfl) rfl) ?_
      refine (forall₂_congr (q := fun l _ => ¬ (l.size ≠ 0 ∧
        (w.db.live env (text dest) = none ∧ l.list.data = [] ∨
          ∃ d, w.db.live env (text dest) = some (.list d) ∧ (l.list.data = [] ∨ d.size < 0))))
        fun l hlive => ?_).trans ?_
      · refine Iff.trans (Clean.getOrInit_iff .list (fun _ _ => asList_eq) (fun _ => rfl)
          (fun _ => rfl)) ?_
        have hthere {d : StoredList Slice} (hd : w.db.live env (text dest) = some (.list d)) :=
          (moveLast_clean_iff (u := w) (Slot.live_data (DB.live_slot w.db (text dest) ▸ hd))
            (cmdLine3 "rpoplpush" (source :: dest :: rest))).trans
            (moveLast_spoils_iff hlive (fun hsame => by
              rw [hsame, hlive] at hd
              cases hd
              rfl) (.inl rfl))
        have hcreated (hgone : w.db.live env (text dest) = none) :=
          (moveLast_clean_iff (u := ⟨(w.db.evict env (text dest)).put (text dest) (.list .newQuickList), w.aof⟩)
            (by rw [lookup_put, if_pos rfl]) (cmdLine3 "rpoplpush" (source :: dest :: rest))).trans
            (moveLast_spoils_iff hlive (fun hsame => by
              rw [hsame, hlive] at hgone
              cases hgone) (.inr le_rfl))
        constructor
        · rintro ⟨hsome, hnone⟩ ⟨hsize, ⟨hgone, hdata⟩ | ⟨d, hd, hor⟩⟩
          · exact (hcreated hgone).mp (hnone hgone) ⟨hsize, .inl hdata⟩
          · exact (hthere hd).mp (hsome d hd) ⟨hsize, hor⟩
        · refine fun h => ⟨fun d hd => (hthere hd).mpr ?_, fun hgone => (hcreated hgone).mpr ?_⟩
          · rintro ⟨hsize, hor⟩
            exact h ⟨hsize, .inr ⟨d, hd, hor⟩⟩
          · rintro ⟨hsize, hor⟩
            exact h ⟨hsize, .inl ⟨hgone, hor.resolve_right (by simp)⟩⟩
      · refine ⟨?_, fun h l hlive hs => h ⟨source, dest, rest, l, rfl, hlive, hs⟩⟩
        rintro h ⟨source', dest', rest', l, heq, hlive, hs⟩
        cases heq
        exact h l hlive hs
  · next hargs =>
      apply iff_of_true (.of_moves .panics)
      rintro ⟨source, dest, rest, l, heq, -⟩
      exact hargs _ _ _ heq

theorem DB.put_put (db : DB σ) (key : Bytes) (e e' : Entity σ) : (db.put key e).put key e' = db.put key e' := by
  simp [DB.put, Finmap.insert_insert]

section

variable [LinearOrder σ]

theorem addElements_broken {z z' : ZSet σ} {i : Nat} {elements : List (Bytes × σ)} (key : Bytes)
    (u : World σ)
    (h : z.brokenBy env.choices i elements = some z') :
    wp (addElements env key z i elements)
      (fun r w' => r = none ∧ w' = { u with db := u.db.put key (.zset z') }) u := by
  fun_induction ZSet.brokenBy env.choices z i elements generalizing u with
  | case1 => cases h
  | case2 z i member score elements z'' hadd =>
      obtain rfl := Option.some.inj h
      simp [addElements, addElement, hadd, setSortedSet, putEntity]
  | case3 z i member score elements z'' isNew hadd ih =>
      simp only [addElements, addElement, hadd, setSortedSet, putEntity, wp_bind, wp_modifyDB, wp_pure]
      apply wp_mono (ih _ h)
      rintro r w' ⟨rfl, rfl⟩
      exact ⟨trivial, by rw [DB.put_put]⟩

theorem addElements_whole {z : ZSet σ} {i : Nat} {elements : List (Bytes × σ)} (u : World σ)
    (h : z.brokenBy env.choices i elements = none) :
    wp (addElements env key z i elements) (fun r _ => r ≠ none) u := by
  fun_induction ZSet.brokenBy env.choices z i elements generalizing u with
  | case1 => simp [addElements]
  | case2 => cases h
  | case3 z i member score elements z'' isNew hadd ih =>
      simp only [addElements, addElement, hadd, setSortedSet, putEntity, wp_bind, wp_modifyDB, wp_pure]
      apply wp_mono (ih _ h)
      intro r w' hr
      cases r with
      | none => exact absurd rfl hr
      | some n => simp

theorem addElements_clean_iff {z : ZSet σ} {elements : List (Bytes × σ)} {u : World σ} :
    wp (do return .int (← addElements env key z 0 elements))
      (fun r w' => Failed r → Kept env w w') u ↔
      ∀ z', z.brokenBy env.choices 0 elements = some z' →
        Kept env w { u with db := u.db.put key (.zset z') } := by
  rw [wp_bind]
  cases hz : z.brokenBy env.choices 0 elements with
  | none =>
      refine iff_of_true (wp_mono (addElements_whole u hz) fun r w' hr => ?_) (by simp)
      cases r with
      | none => exact absurd rfl hr
      | some n => exact fun hfailed => absurd hfailed (not_failed rfl)
  | some z' =>
      rw [wp_of_run (addElements_broken key u hz)]
      simp [failed_none]

/-- The member has another score, whether its node is put back or not. -/
theorem ZSet.add_ne {z : ZSet σ} {member : Bytes} {old : σ} (score : σ) (height : Nat)
    (hold : z.dict.lookup member = some old) (hne : score ≠ old) : (z.add member score height).1 ≠ z := by
  have hdict : (z.add member score height).1.dict = z.dict.insert member score := by
    rw [add, hold]
    dsimp only
    rw [if_pos hne]
    split <;> rfl
  intro heq
  have hlookup := congrArg (fun z => z.dict.lookup member) heq
  simp [hdict, hold, hne] at hlookup

theorem ZSet.add_none_iff {z : ZSet σ} {member : Bytes} {old : σ} (score : σ) (height : Nat)
    (hold : z.dict.lookup member = some old) :
    (z.add member score height).2 = none ↔ SkipList.maxLevel < height ∧ score ≠ old := by
  rw [add, hold]
  dsimp only
  split
  · next hne => split <;> simp_all
  · next hsame => simp_all

variable [Inhabited σ]

theorem execZAdd_clean_iff : Clean env (execZAdd env args) w ↔ ¬ ZAddSpoils env w args := by
  rcases args with _ | ⟨key, rest⟩
  · exact iff_of_true (.of_moves (.pure _)) (by simp [ZAddSpoils])
  · rw [execZAdd]
    by_cases hlength : (key :: rest).length % 2 ≠ 1
    · rw [if_pos hlength]
      apply iff_of_true (.of_moves (.pure _))
      rintro ⟨key', rest', elements, heq, hrest, -⟩
      cases heq
      rw [List.length_cons] at hlength
      omega
    · rw [if_neg hlength]
      cases hparse : parseElements env rest with
      | none =>
          apply iff_of_true (.of_moves (.pure _))
          rintro ⟨key', rest', elements, heq, -, hp, -⟩
          cases heq
          rw [hparse] at hp
          cases hp
      | some elements =>
          refine Iff.trans (Clean.getOrInit_iff .zset (fun _ _ => asSortedSet_eq)
            (fun _ => rfl) (fun _ => rfl)) ?_
          have hthere {z : ZSet σ} (hz : w.db.live env (text key) = some (.zset z)) :
              Clean env (do return .int (← addElements env (text key) z 0 elements)) w ↔
                ∀ z', z.brokenBy env.choices 0 elements = some z' → z' = z := by
            refine addElements_clean_iff.trans (forall₂_congr fun z' _ => ?_)
            rw [kept_put_iff hz, Entity.zset.injEq]
          have hcreated (hgone : w.db.live env (text key) = none) (z' : ZSet σ) : ¬ Kept env w
              ⟨((w.db.evict env (text key)).put (text key) (.zset ZSet.make)).put (text key) (.zset z'),
                w.aof⟩ :=
            not_kept_created hgone (by rw [lookup_put, if_pos rfl]) rfl
          have hrest : rest.length % 2 = 0 := by
            rw [List.length_cons] at hlength
            omega
          constructor
          · rintro ⟨hsome, hnone⟩ ⟨key', rest', elements', heq, -, hp, hor⟩
            cases heq
            obtain rfl := Option.some.inj (hparse.symm.trans hp)
            rcases hor with ⟨hgone, hbroken⟩ | ⟨z, z', hz, hbroken, hne⟩
            · obtain ⟨z', hz'⟩ := Option.ne_none_iff_exists'.mp hbroken
              exact hcreated hgone z' (addElements_clean_iff.mp (hnone hgone) z' hz')
            · exact hne ((hthere hz).mp (hsome z hz) z' hbroken)
          · refine fun h => ⟨fun z hz => (hthere hz).mpr fun z' hbroken => ?_, fun hgone =>
              addElements_clean_iff.mpr fun z' hbroken => ?_⟩
            · by_contra hne
              exact h ⟨key, rest, elements, rfl, hrest, hparse, .inr ⟨z, z', hz, hbroken, hne⟩⟩
            · exact absurd ⟨key, rest, elements, rfl, hrest, hparse, .inl ⟨hgone, by simp [hbroken]⟩⟩ h

theorem execZIncrBy_clean_iff : Clean env (execZIncrBy env args) w ↔ ¬ ZIncrBySpoils env w args := by
  unfold execZIncrBy
  split
  · next key rawDelta field rest =>
      cases hdelta : env.lib.parseFloat (text rawDelta) with
      | none =>
          apply iff_of_true (.of_moves (.pure _))
          rintro ⟨key', rawDelta', field', rest', delta, heq, hp, -⟩
          cases heq
          rw [hdelta] at hp
          cases hp
      | some delta =>
          refine Iff.trans (Clean.getOrInit_iff .zset (fun _ _ => asSortedSet_eq)
            (fun _ => rfl) (fun _ => rfl)) ?_
          refine (and_congr_left' (forall₂_congr (q := fun z _ =>
            ¬ ∃ old, z.dict.lookup (text field) = some old ∧
              SkipList.maxLevel < env.choices.height 0 ∧ env.lib.addFloat old delta ≠ old)
            fun z hz => ?_)).trans ?_
          · dsimp only [ZSet.get]
            cases hold : z.dict.lookup (text field) with
            | none => exact iff_of_true (.of_moves .panics) (by simp)
            | some old =>
                have hiff := ZSet.add_none_iff (env.lib.addFloat old delta)
                  (env.choices.height 0) hold
                have hne := ZSet.add_ne (env.lib.addFloat old delta)
                  (env.choices.height 0) hold
                rcases hadd : z.add (text field) (env.lib.addFloat old delta) (env.choices.height 0)
                  with ⟨z', isNew⟩
                rw [hadd] at hiff hne
                simp only [Clean, addElement, hadd, setSortedSet, putEntity, wp_bind, wp_modifyDB,
                  Option.some.injEq, exists_eq_left']
                cases isNew with
                | none =>
                    simp only [wp_panics, failed_none, forall_const, kept_put_iff hz, Entity.zset.injEq]
                    have hbroken := hiff.mp rfl
                    exact iff_of_false (hne hbroken.2) (not_not.mpr hbroken)
                | some isNew =>
                    apply iff_of_true (fun hfailed => absurd hfailed (not_failed (by simp)))
                    intro h
                    cases hiff.mpr h
          · have hcreated (hgone : w.db.live env (text key) = none) : ¬ Kept env w
                ⟨(w.db.evict env (text key)).put (text key) (.zset ZSet.make), w.aof⟩ :=
              not_kept_created hgone (by rw [lookup_put, if_pos rfl]) rfl
            constructor
            · rintro ⟨hsome, hnone⟩ ⟨key', rawDelta', field', rest', delta', heq, hp, hor⟩
              cases heq
              obtain rfl := Option.some.inj (hdelta.symm.trans hp)
              rcases hor with hgone | ⟨z, old, hz, hold⟩
              · exact hcreated hgone (hnone hgone failed_none)
              · exact hsome z hz ⟨old, hold⟩
            · refine fun h => ⟨fun z hz => ?_, fun hgone => ?_⟩
              · rintro ⟨old, hold⟩
                exact h ⟨key, rawDelta, field, rest, delta, rfl, hdelta, .inr ⟨z, old, hz, hold⟩⟩
              · exact absurd ⟨key, rawDelta, field, rest, delta, rfl, hdelta, .inl hgone⟩ h
  · next hargs =>
      apply iff_of_true (.of_moves .panics)
      rintro ⟨key, rawDelta, field, rest, delta, heq, -⟩
      exact hargs _ _ _ _ heq

theorem command_clean_iff (c : CommandName) (args : List Slice) :
    Clean env ((command env c).executor args) w ↔ ¬ Spoils env w args c :=
  have quiet {m : Exec σ Reply} (h : Moves (Quiet env) m) : Clean env m w ↔ ¬ False :=
    iff_of_true (.of_moves h) id
  have careful {kind : List CmdLine → Prop} {m : Exec σ Reply} (h : Journals env kind m) :
      Clean env m w ↔ ¬ False := iff_of_true (.of_journals h) id
  match c with
  | .set => careful (execSet_careful env args)
  | .setNx => careful (execSetNX_journals env args)
  | .setEX => careful (setWithTTL_careful env args _)
  | .pSetEX => careful (setWithTTL_careful env args _)
  | .mset => careful (execMSet_journals env args)
  | .mSetNX => careful (execMSetNX_journals env args)
  | .getEX => execGetEX_clean_iff
  | .getSet => careful (execGetSet_journals env args)
  | .getDel => careful (execGetDel_journals env args)
  | .incr => careful (execIncr_journals env args)
  | .incrBy => careful (execIncrBy_journals env args)
  | .incrByFloat => careful (execIncrByFloat_journals env args)
  | .decr => careful (execDecr_journals env args)
  | .decrBy => careful (execDecrBy_journals env args)
  | .append => careful (execAppend_journals env args)
  | .setRange => careful (execSetRange_journals env args)
  | .setBit => careful (execSetBit_careful env args)
  | .del => careful (execDel_journals env args)
  | .expire => careful (expireCommand_careful env args _)
  | .expireAt => careful (expireCommand_careful env args _)
  | .pExpire => careful (expireCommand_careful env args _)
  | .pExpireAt => careful (expireCommand_careful env args _)
  | .persist => careful (execPersist_journals env args)
  | .rename => careful (execRename_journals env args)
  | .renameNx => careful (execRenameNx_journals env args)
  | .lPush => careful (execLPush_journals env args)
  | .lPushX => careful (execLPushX_journals env args)
  | .rPush => careful (execRPush_journals env args)
  | .rPushX => careful (execRPushX_journals env args)
  | .lPop => careful (execLPop_journals env args)
  | .rPop => execRPop_clean_iff
  | .rPopLPush => execRPopLPush_clean_iff
  | .lRem => execLRem_clean_iff
  | .lSet => careful (execLSet_journals env args)
  | .hSet => careful (execHSet_journals env args)
  | .hSetNX => careful (execHSetNX_journals env args)
  | .hDel => careful (execHDel_careful env args)
  | .hMSet => careful (execHMSet_journals env args)
  | .hIncrBy => careful (execHIncrBy_journals env args)
  | .hIncrByFloat => careful (execHIncrByFloat_careful env args)
  | .sAdd => careful (execSAdd_journals env args)
  | .sRem => careful (execSRem_careful env args)
  | .sPop => careful (execSPop_careful env args)
  | .sInterStore => careful (execSInterStore_careful env args)
  | .sUnionStore => careful (execSUnionStore_careful env args)
  | .sDiffStore => careful (execSDiffStore_careful env args)
  | .zAdd => execZAdd_clean_iff
  | .zIncrBy => execZIncrBy_clean_iff
  | .zPopMin => careful (execZPopMin_journals env args)
  | .zRem => careful (execZRem_journals env args)
  | .zRemRangeByScore => careful (execZRemRangeByScore_journals env args)
  | .zRemRangeByRank => careful (execZRemRangeByRank_journals env args)
  | .mget | .get | .strLen | .getRange | .getBit | .bitCount | .bitPos | .ttl | .pttl | .exists_ | .type
      | .keys | .lLen | .lIndex | .lRange | .hExists | .hLen | .hStrlen | .hMGet | .hGet | .hKeys | .hVals
      | .hGetAll | .hRandField | .sIsMember | .sCard | .sMembers | .sInter | .sUnion | .sDiff | .sRandMember
      | .zScore | .zRank | .zCount | .zRevRank | .zCard | .zRange | .zRangeByScore | .zRevRange
      | .zRevRangeByScore | .ping => quiet (read_moves env args rfl)

/-- An answer that is an error means that nothing but expired keys has changed. -/
def FailsCleanly (env : Env σ) (line : CmdLine) (w : World σ) : Prop :=
  isErrorReply (exec env line w).1 = true → Kept env w (exec env line w).2

theorem failsCleanly_command {name : Slice} {c : CommandName} (hc : cmdTable (toLower (text name)) = some c)
    (harity : validateArity (command env c).arity (name :: args) = true) :
    FailsCleanly env (name :: args) w ↔ ¬ Spoils env w args c := by
  obtain ⟨hversion, versionMap, hw⟩ := (wp_iff _ _ w).mp
    (wp_addVersion ((command env c).prepare args).1 w)
  have hclean : Clean env ((command env c).executor args) (w.versions versionMap) ↔
      ¬ Spoils env w args c := command_clean_iff c args
  have hexec : wp (execNormalCommand env (name :: args)) (fun r w' => Failed r → Kept env w w') w ↔
      Clean env ((command env c).executor args) (w.versions versionMap) := by
    simp only [execNormalCommand, findCommand, hc, harity, if_true, wp_bind, wp_pure]
    rw [wp_iff, hversion, hw]
    exact Iff.rfl
  rw [← hclean, ← hexec, wp_iff]
  exact Iff.rfl

theorem failsCleanly_of_eq {line : CmdLine} (h : (exec env line w).2 = w) : FailsCleanly env line w :=
  fun _ => h.symm ▸ Kept.refl env w

def SpoilsLine (env : Env σ) (w : World σ) (line : CmdLine) : Prop :=
  ∃ name args c, line = name :: args ∧ cmdTable (toLower (text name)) = some c ∧
    validateArity (command env c).arity line = true ∧ Spoils env w args c

theorem failsCleanly_iff (line : CmdLine) (w : World σ) :
    FailsCleanly env line w ↔ ¬ SpoilsLine env w line := by
  rcases line with _ | ⟨name, args⟩
  · exact iff_of_true (failsCleanly_of_eq exec_nil) (by simp [SpoilsLine])
  · cases hc : cmdTable (toLower (text name)) with
    | none =>
        apply iff_of_true (failsCleanly_of_eq (exec_unknown hc))
        rintro ⟨name', args', c, heq, hc', -⟩
        cases heq
        rw [hc] at hc'
        cases hc'
    | some c =>
        cases harity : validateArity (command env c).arity (name :: args) with
        | false =>
            apply iff_of_true (failsCleanly_of_eq (exec_badArity hc harity))
            rintro ⟨name', args', c', heq, hc', harity', -⟩
            cases heq
            obtain rfl := Option.some.inj (hc.symm.trans hc')
            rw [harity] at harity'
            cases harity'
        | true =>
            rw [failsCleanly_command hc harity, not_iff_not]
            constructor
            · exact fun h => ⟨name, args, c, rfl, hc, harity, h⟩
            · rintro ⟨name', args', c', heq, hc', -, h⟩
              cases heq
              obtain rfl := Option.some.inj (hc.symm.trans hc')
              exact h

end

/-- `GETEX k PERSIST EX`, where `k` has a time to live: the syntax error comes when that is gone. -/
theorem getEX_not_failsCleanly : ¬ FailsCleanly (Env.plain 0)
    [some (bytes "getex"), some (bytes "k"), some (bytes "PERSIST"), some (bytes "EX")]
    ⟨⟨Finmap.singleton (bytes "k") (.str (some (bytes "v"))), Finmap.singleton (bytes "k") (100 * second),
      fun _ => 0⟩, []⟩ := by
  rw [failsCleanly_command (c := .getEX) rfl rfl, not_not]
  refine ⟨_, _, bytes "v", .syntaxErr, rfl, ?_, ?_, rfl⟩
  · simp [DB.live, DB.isExpired, text, second, Env.plain]
  · simp [text]

end Traitor.Database
