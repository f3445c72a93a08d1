import Mathlib.Algebra.Group.Defs
import Traitor.SortedSetMap

namespace Traitor.Database

open Lib.Effects Lib.Strconv Protocol

variable {σ : Type} [LinearOrder σ]

inductive MapCommand
  | zAdd (rest : List Slice)
  | zIncrBy (rawDelta field : Slice)
  | zRem (fields : List Slice)
  | zScore (member : Slice)
  | zCard

def MapCommand.exec (env : Env σ) (key : Slice) : MapCommand → Exec σ Reply
  | .zAdd rest => execZAdd env (key :: rest)
  | .zIncrBy rawDelta field => execZIncrBy env [key, rawDelta, field]
  | .zRem fields => execZRem env (key :: fields)
  | .zScore member => execZScore env [key, member]
  | .zCard => execZCard env [key]

def inserted (m : Dict σ) : List (Bytes × σ) → Dict σ
  | [] => m
  | (member, score) :: elements => inserted (m.insert member score) elements

def erased (m : Dict σ) : List Bytes → Dict σ
  | [] => m
  | member :: members => erased (m.erase member) members

def MapCommand.reply [Zero σ] [Add σ] (env : Env σ) (m : Dict σ) : MapCommand → Reply × Dict σ
  | .zAdd rest =>
      if rest.length % 2 ≠ 0 then (.syntaxErr, m)
      else
        match parseElements env rest with
        | none => (notFloat, m)
        | some elements =>
            (.int ((inserted m elements).keys.card - m.keys.card), inserted m elements)
  | .zIncrBy rawDelta field =>
      match env.lib.parseFloat (text rawDelta) with
      | none => (notFloat, m)
      | some delta =>
          let score := (m.lookup (text field)).getD 0 + delta
          (.bulk (some (env.lib.formatFloat score)), m.insert (text field) score)
  | .zRem fields =>
      (.int (m.keys.card - (erased m (fields.map text)).keys.card), erased m (fields.map text))
  | .zScore member =>
      match m.lookup (text member) with
      | none => (.nullBulk, m)
      | some score => (.bulk (some (env.lib.formatFloat score)), m)
  | .zCard => (.int m.keys.card, m)

def MapCommand.creates (env : Env σ) : MapCommand → Bool
  | .zAdd rest => rest.length % 2 = 0 && (parseElements env rest).isSome
  | .zIncrBy rawDelta _ => (env.lib.parseFloat (text rawDelta)).isSome
  | _ => false

def HeightsFit (c : Choices) (m : Dict σ) (i : Nat) : List (Bytes × σ) → Prop
  | [] => True
  | (member, score) :: elements =>
      (m.lookup member ≠ some score → c.height i ≤ SkipList.maxLevel) ∧
        HeightsFit c (m.insert member score) (i + 1) elements

/-- A member that is not there is not incremented, and not asked for when there is a set. -/
def MapCommand.Meets [Add σ] (env : Env σ) (created : Bool) (m : Dict σ) : MapCommand → Prop
  | .zAdd rest => ∀ elements, rest.length % 2 = 0 → parseElements env rest = some elements →
      HeightsFit env.choices m 0 elements
  | .zIncrBy rawDelta field => ∀ delta, env.lib.parseFloat (text rawDelta) = some delta →
      ∃ old, m.lookup (text field) = some old ∧
        (old + delta ≠ old → env.choices.height 0 ≤ SkipList.maxLevel)
  | .zScore member => created = true → ∃ score, m.lookup (text member) = some score
  | .zRem _ => True
  | .zCard => True

structure Holds (w : World σ) (key : Bytes) (stored : Option (ZSet σ)) : Prop where
  slot : w.db.slot key = ⟨stored.map .zset, none⟩
  valid : ∀ z ∈ stored, z.Valid

def dictOf (stored : Option (ZSet σ)) : Dict σ := stored.elim ∅ ZSet.dict

section

variable {env : Env σ} {w : World σ} {key : Bytes} {stored : Option (ZSet σ)} {z : ZSet σ}

theorem Holds.put (h : Holds w key stored) (hz : z.Valid) :
    Holds { w with db := w.db.put key (.zset z) } key (some z) where
  slot := by
    rw [DB.slot_put, if_pos rfl, h.slot]
    rfl
  valid := by
    rintro _ ⟨⟩
    exact hz

theorem Holds.isExpired (h : Holds w key stored) (env : Env σ) : w.db.isExpired env key = false := by
  have httl : w.db.ttlMap.lookup key = none := congrArg Slot.ttl h.slot
  rw [DB.isExpired, httl]

theorem Holds.evict (h : Holds w key stored) (env : Env σ) : w.db.evict env key = w.db := by
  rw [DB.evict, if_neg]
  rw [h.isExpired env]
  simp

theorem Holds.view (h : Holds w key stored) (env : Env σ) :
    w.db.view env Entity.asSortedSet key = .ok stored := by
  have hdata : w.db.data.lookup key = stored.map .zset := congrArg Slot.data h.slot
  have hlive : w.db.live env key = stored.map .zset := by
    rw [DB.live, h.isExpired env, if_neg (by simp), hdata]
  rw [DB.view, hlive]
  cases stored <;> rfl

theorem Holds.getAs (h : Holds w key stored) (Q : Option (Except Reply (Option (ZSet σ))) → World σ → Prop) :
    wp (getAsSortedSet env key) Q w = Q (some (.ok stored)) w := by
  rw [getAsSortedSet, wp_getAs, h.view, h.evict]

variable (env) in
/-- After it there is a set, with the same pairs. -/
theorem Holds.getOrInit (h : Holds w key stored) : ∃ u, Holds u key (some (stored.getD ZSet.make)) ∧
    ∀ Q : Option (Except Reply (ZSet σ)) → World σ → Prop,
      wp (getOrInitSortedSet env key) Q w = Q (some (.ok (stored.getD ZSet.make))) u := by
  cases hstored : stored with
  | none =>
      refine ⟨_, h.put ZSet.make_valid, fun Q => ?_⟩
      rw [getOrInitSortedSet, Database.getOrInit, wp_bind, wp_getAs, h.view, h.evict, hstored]
      rfl
  | some z =>
      refine ⟨w, hstored ▸ h, fun Q => ?_⟩
      rw [getOrInitSortedSet, Database.getOrInit, wp_bind, wp_getAs, h.view, h.evict, hstored]
      rfl

omit [LinearOrder σ] in
theorem dictOf_getD (stored : Option (ZSet σ)) : dictOf (some (stored.getD ZSet.make)) = dictOf stored := by
  cases stored <;> rfl

omit [LinearOrder σ] in
theorem card_insert (m : Dict σ) (member : Bytes) (score : σ) :
    ((m.insert member score).keys.card : Int) =
      m.keys.card + if (m.lookup member).isNone = true then 1 else 0 := by
  have hkeys : (m.insert member score).keys = insert member m.keys := by
    ext k
    rw [Finmap.mem_keys, Finmap.mem_insert, Finset.mem_insert, Finmap.mem_keys]
  rw [hkeys]
  cases hlookup : m.lookup member with
  | none =>
      have hnot : member ∉ m.keys := by
        rw [Finmap.mem_keys, ← Finmap.lookup_isSome, hlookup]
        simp
      rw [Finset.card_insert_of_notMem hnot]
      simp
  | some old =>
      have hin : member ∈ m.keys := by
        rw [Finmap.mem_keys, ← Finmap.lookup_isSome, hlookup]
        rfl
      rw [Finset.insert_eq_of_mem hin]
      simp

omit [LinearOrder σ] in
theorem card_erase (m : Dict σ) (member : Bytes) :
    ((m.erase member).keys.card : Int) = m.keys.card - if (m.lookup member).isSome = true then 1 else 0 := by
  rw [Finmap.keys_erase]
  cases hlookup : m.lookup member with
  | none =>
      have hnot : member ∉ m.keys := by
        rw [Finmap.mem_keys, ← Finmap.lookup_isSome, hlookup]
        simp
      rw [Finset.erase_eq_of_notMem hnot]
      simp
  | some old =>
      have hin : member ∈ m.keys := by
        rw [Finmap.mem_keys, ← Finmap.lookup_isSome, hlookup]
        rfl
      have hpos := Finset.card_pos.mpr ⟨member, hin⟩
      rw [Finset.card_erase_of_mem hin, Option.isSome_some, if_pos rfl]
      omega

/-- The answer is by how much the map has grown. -/
theorem wp_addElements_fits {i : Nat} {elements : List (Bytes × σ)} (h : Holds w key (some z))
    (hfits : HeightsFit env.choices z.dict i elements) :
    wp (addElements env key z i elements) (fun r w' => ∃ z', Holds w' key (some z') ∧
      z'.dict = inserted z.dict elements ∧ r = some ((z'.dict.keys.card : Int) - z.dict.keys.card)) w := by
  induction elements generalizing z i w with
  | nil => exact ⟨z, h, rfl, by simp⟩
  | cons e elements ih =>
      obtain ⟨member, score⟩ := e
      obtain ⟨hheight, hrest⟩ := hfits
      obtain ⟨hadd, hdict, hvalid⟩ := (h.valid z rfl).add hheight
      rw [← hdict] at hrest
      rw [addElements, wp_bind, wp_addElement, hadd]
      simp only [Option.map_some]
      rw [wp_bind]
      apply wp_mono (ih (h.put hvalid) hrest)
      intro r w' hr
      obtain ⟨z', hholds, hz', rfl⟩ := hr
      refine ⟨z', hholds, by rw [hz', hdict, inserted], ?_⟩
      rw [hdict, card_insert]
      congr 1
      omega

theorem wp_addElements_unfit {i : Nat} {elements : List (Bytes × σ)} (h : Holds w key (some z))
    (hunfit : ¬ HeightsFit env.choices z.dict i elements) :
    wp (addElements env key z i elements) (fun r _ => r = none) w := by
  induction elements generalizing z i w with
  | nil => exact absurd trivial hunfit
  | cons e elements ih =>
      obtain ⟨member, score⟩ := e
      rw [HeightsFit, not_and_or] at hunfit
      rw [addElements, wp_bind, wp_addElement]
      by_cases hheight : z.dict.lookup member ≠ some score → env.choices.height i ≤ SkipList.maxLevel
      · obtain ⟨hadd, hdict, hvalid⟩ := (h.valid z rfl).add hheight
        have hrest := hunfit.resolve_left (not_not.mpr hheight)
        rw [← hdict] at hrest
        rw [hadd]
        simp only [Option.map_some]
        rw [wp_bind]
        apply wp_mono (ih (h.put hvalid) hrest)
        intro r w' hr
        rw [hr]
      · rw [Classical.not_imp, not_le] at hheight
        rw [ZSet.add_none hheight.2 hheight.1]
        rfl

theorem removeElements_valid (hz : z.Valid) (members : List Bytes) :
    (removeElements z members).1.Valid ∧ (removeElements z members).1.dict = erased z.dict members ∧
      (removeElements z members).2 = z.dict.keys.card - (erased z.dict members).keys.card := by
  induction members generalizing z with
  | nil => exact ⟨hz, rfl, by simp [removeElements, erased]⟩
  | cons member members ih =>
      obtain ⟨hremoved, hdict, hvalid⟩ := hz.remove member
      obtain ⟨hvalid', hdict', hcount⟩ := ih hvalid
      rw [hdict] at hdict' hcount
      refine ⟨hvalid', hdict', ?_⟩
      rw [removeElements, erased]
      dsimp only
      rw [hcount, hremoved, card_erase]
      omega

end

section

variable [Zero σ] [Add σ]

/-- A command that meets its condition answers as the map and becomes it, and another one panics. -/
def Answers (env : Env σ) (key : Bytes) (stored : Option (ZSet σ)) (c : MapCommand) (r : Option Reply)
    (w : World σ) : Prop :=
  (c.Meets env stored.isSome (dictOf stored) → r = some (c.reply env (dictOf stored)).1 ∧
    ∃ stored', Holds w key stored' ∧ dictOf stored' = (c.reply env (dictOf stored)).2 ∧
      stored'.isSome = (stored.isSome || c.creates env)) ∧
  (¬ c.Meets env stored.isSome (dictOf stored) → r = none)

variable {env : Env σ} {w : World σ} {key : Slice} {stored : Option (ZSet σ)}

theorem Answers.of_meets {c : MapCommand} {r : Option Reply} {key : Bytes}
    (hmeets : c.Meets env stored.isSome (dictOf stored)) (hr : r = some (c.reply env (dictOf stored)).1)
    {stored' : Option (ZSet σ)} (hholds : Holds w key stored')
    (hdict : dictOf stored' = (c.reply env (dictOf stored)).2)
    (hcreated : stored'.isSome = (stored.isSome || c.creates env)) : Answers env key stored c r w :=
  ⟨fun _ => ⟨hr, stored', hholds, hdict, hcreated⟩, fun hnot => absurd hmeets hnot⟩

theorem Answers.of_panic {c : MapCommand} {r : Option Reply} {key : Bytes}
    (hnot : ¬ c.Meets env stored.isSome (dictOf stored)) (hr : r = none) : Answers env key stored c r w :=
  ⟨fun hmeets => absurd hmeets hnot, fun _ => hr⟩

omit [Zero σ] [Add σ] in
theorem Holds.of_db {key : Bytes} (h : Holds w key stored) {u : World σ} (hdb : u.db = w.db) :
    Holds u key stored := ⟨by rw [hdb, h.slot], h.valid⟩

omit [LinearOrder σ] [Zero σ] [Add σ] in
theorem erased_empty (members : List Bytes) : erased (∅ : Dict σ) members = ∅ := by
  induction members with
  | nil => rfl
  | cons member members ih =>
      have hnone : (∅ : Dict σ).erase member = ∅ := by
        apply Finmap.ext_lookup
        intro k
        by_cases hk : k = member
        · rw [hk, Finmap.lookup_erase, Finmap.lookup_empty]
        · rw [Finmap.lookup_erase_ne hk]
      rw [erased, hnone, ih]

theorem zCard_answers (h : Holds w (text key) stored) :
    wp (execZCard env [key]) (Answers env (text key) stored .zCard) w := by
  rw [execZCard, wp_bind, h.getAs]
  cases stored with
  | none => exact .of_meets trivial rfl h rfl rfl
  | some z =>
      refine .of_meets trivial ?_ h rfl rfl
      rw [ZSet.len, ← (h.valid z rfl).card]
      rfl

theorem zScore_answers (h : Holds w (text key) stored) (member : Slice) :
    wp (execZScore env [key, member]) (Answers env (text key) stored (.zScore member)) w := by
  rw [execZScore, wp_bind, h.getAs]
  cases stored with
  | none =>
      refine .of_meets (fun hcreated => by cases hcreated) ?_ h ?_ rfl <;>
        simp [MapCommand.reply, dictOf]
  | some z =>
      dsimp only
      cases hlookup : z.dict.lookup (text member) with
      | none =>
          rw [ZSet.get, hlookup]
          refine .of_panic (fun hmeets => ?_) rfl
          obtain ⟨score, hscore⟩ := hmeets rfl
          rw [show dictOf (some z) = z.dict from rfl, hlookup] at hscore
          cases hscore
      | some score =>
          rw [ZSet.get, hlookup]
          refine .of_meets (fun _ => ⟨score, hlookup⟩) ?_ h ?_ rfl <;>
            simp [MapCommand.reply, dictOf, hlookup]

theorem zRem_answers (h : Holds w (text key) stored) (fields : List Slice) :
    wp (execZRem env (key :: fields)) (Answers env (text key) stored (.zRem fields)) w := by
  rw [execZRem, wp_bind, h.getAs]
  cases stored with
  | none =>
      refine .of_meets trivial ?_ h ?_ rfl <;> simp [MapCommand.reply, dictOf, erased_empty]
  | some z =>
      obtain ⟨hvalid, hdict, hcount⟩ := removeElements_valid (h.valid z rfl) (fields.map text)
      have hput := h.put hvalid
      have hreply : some (Reply.int (removeElements z (fields.map text)).2) =
          some (MapCommand.reply env (dictOf (some z)) (.zRem fields)).1 := by rw [hcount]; rfl
      simp only [setSortedSet, putEntity, wp_bind, wp_modifyDB]
      split
      · exact .of_meets trivial hreply (hput.of_db rfl) hdict rfl
      · exact .of_meets trivial hreply hput hdict rfl

theorem zAdd_answers (h : Holds w (text key) stored) (rest : List Slice) :
    wp (execZAdd env (key :: rest)) (Answers env (text key) stored (.zAdd rest)) w := by
  rw [execZAdd]
  by_cases hodd : rest.length % 2 = 0
  · rw [if_neg (by rw [List.length_cons]; omega)]
    cases helements : parseElements env rest with
    | none =>
        refine .of_meets (fun _ _ hsome => ?_) ?_ h ?_ ?_
        · rw [helements] at hsome
          cases hsome
        all_goals simp [MapCommand.reply, MapCommand.creates, hodd, helements]
    | some elements =>
        obtain ⟨u, hu, hinit⟩ := h.getOrInit env
        have hdict := dictOf_getD stored
        have hmeets : (MapCommand.zAdd rest).Meets env stored.isSome (dictOf stored) ↔
            HeightsFit env.choices (stored.getD ZSet.make).dict 0 elements := by
          rw [← hdict]
          constructor
          · intro hall
            exact hall elements hodd helements
          · intro hfits l _ hl
            rw [helements, Option.some.injEq] at hl
            exact hl ▸ hfits
        dsimp only
        rw [wp_bind, hinit]
        dsimp only
        rw [wp_bind]
        by_cases hfits : HeightsFit env.choices (stored.getD ZSet.make).dict 0 elements
        · apply wp_mono (wp_addElements_fits hu hfits)
          intro r w' hr
          obtain ⟨z', hholds, hz', rfl⟩ := hr
          have hsame : (stored.getD ZSet.make).dict = dictOf stored := hdict
          rw [hsame] at hz'
          refine .of_meets (hmeets.mpr hfits) ?_ hholds ?_ ?_
          · simp [MapCommand.reply, hodd, helements, hz', hsame]
          · simp [MapCommand.reply, hodd, helements, dictOf, hz']
          · simp [MapCommand.creates, hodd, helements]
        · apply wp_mono (wp_addElements_unfit hu hfits)
          intro r w' hr
          rw [hr]
          exact .of_panic (fun hall => hfits (hmeets.mp hall)) rfl
  · rw [if_pos (by rw [List.length_cons]; omega)]
    refine .of_meets (fun _ heven => absurd heven hodd) ?_ h ?_ ?_ <;>
      simp [MapCommand.reply, MapCommand.creates, hodd]

theorem zIncrBy_answers (h : Holds w (text key) stored) (hadd : env.lib.addFloat = (· + ·))
    (rawDelta field : Slice) : wp (execZIncrBy env [key, rawDelta, field])
      (Answers env (text key) stored (.zIncrBy rawDelta field)) w := by
  rw [execZIncrBy]
  cases hdelta : env.lib.parseFloat (text rawDelta) with
  | none =>
      refine .of_meets (fun _ hsome => ?_) ?_ h ?_ ?_
      · rw [hdelta] at hsome
        cases hsome
      all_goals simp [MapCommand.reply, MapCommand.creates, hdelta]
  | some delta =>
      obtain ⟨u, hu, hinit⟩ := h.getOrInit env
      have hdict : (stored.getD ZSet.make).dict = dictOf stored := dictOf_getD stored
      dsimp only
      rw [wp_bind, hinit]
      dsimp only
      rw [ZSet.get, hdict, hadd]
      cases hlookup : (dictOf stored).lookup (text field) with
      | none =>
          refine .of_panic (fun hmeets => ?_) rfl
          obtain ⟨old, hold, -⟩ := hmeets delta hdelta
          rw [hlookup] at hold
          cases hold
      | some old =>
          have hmeets : (MapCommand.zIncrBy rawDelta field).Meets env stored.isSome (dictOf stored) ↔
              (old + delta ≠ old → env.choices.height 0 ≤ SkipList.maxLevel) := by
            constructor
            · intro hall
              obtain ⟨old', hold', hfits⟩ := hall delta hdelta
              rw [hlookup, Option.some.injEq] at hold'
              exact hold' ▸ hfits
            · intro hfits delta' hdelta'
              rw [hdelta, Option.some.injEq] at hdelta'
              exact ⟨old, hlookup, hdelta' ▸ hfits⟩
          have hscore : (stored.getD ZSet.make).dict.lookup (text field) ≠ some (old + delta) ↔
              old + delta ≠ old := by
            rw [hdict, hlookup, Ne, Option.some.injEq, eq_comm]
          dsimp only
          rw [wp_bind, wp_addElement]
          by_cases hfits : old + delta ≠ old → env.choices.height 0 ≤ SkipList.maxLevel
          · obtain ⟨hnew, hinserted, hvalid⟩ := (hu.valid _ rfl).add fun hne => hfits (hscore.mp hne)
            rw [hnew]
            simp only [Option.map_some, wp_bind, wp_addAof, wp_pure]
            refine .of_meets (hmeets.mpr hfits) ?_ ((hu.put hvalid).of_db rfl) ?_ ?_
            · simp [MapCommand.reply, hdelta, hlookup]
            · have hreply : (MapCommand.reply env (dictOf stored) (.zIncrBy rawDelta field)).2 =
                  (dictOf stored).insert (text field) (old + delta) := by simp [MapCommand.reply, hdelta, hlookup]
              rw [hreply, ← hdict]
              exact hinserted
            · simp [MapCommand.creates, hdelta]
          · rw [Classical.not_imp, not_le] at hfits
            rw [ZSet.add_none hfits.2 (hscore.mpr hfits.1)]
            refine .of_panic (fun hall => ?_) rfl
            exact absurd (hmeets.mp hall hfits.1) (not_le.mpr hfits.2)

theorem exec_answers (h : Holds w (text key) stored) (hadd : env.lib.addFloat = (· + ·)) (c : MapCommand) :
    wp (c.exec env key) (Answers env (text key) stored c) w := by
  cases c with
  | zAdd rest => exact zAdd_answers h rest
  | zIncrBy rawDelta field => exact zIncrBy_answers h hadd rawDelta field
  | zRem fields => exact zRem_answers h fields
  | zScore member => exact zScore_answers h member
  | zCard => exact zCard_answers h

/-- In a run on one key every command returns, with the reply of the map as the commands before leave it. -/
def RepliesAsMap (key : Slice) : World σ → Dict σ → List (Env σ × MapCommand) → Prop
  | _, _, [] => True
  | w, m, (env, c) :: steps =>
      value (c.exec env key) w = some (c.reply env m).1 ∧
        RepliesAsMap key (final (c.exec env key) w) (c.reply env m).2 steps

def MeetAll : Bool → Dict σ → List (Env σ × MapCommand) → Prop
  | _, _, [] => True
  | created, m, (env, c) :: steps =>
      c.Meets env created m ∧ MeetAll (created || c.creates env) (c.reply env m).2 steps

theorem Holds.replies_iff (h : Holds w (text key) stored) {steps : List (Env σ × MapCommand)}
    (hadd : ∀ step ∈ steps, step.1.lib.addFloat = (· + ·)) :
    RepliesAsMap key w (dictOf stored) steps ↔ MeetAll stored.isSome (dictOf stored) steps := by
  induction steps generalizing w stored with
  | nil => exact Iff.rfl
  | cons step steps ih =>
      obtain ⟨env, c⟩ := step
      have hanswers := (wp_iff _ _ w).mp (exec_answers h (hadd _ List.mem_cons_self) c)
      rw [RepliesAsMap, MeetAll]
      by_cases hmeets : c.Meets env stored.isSome (dictOf stored)
      · obtain ⟨hreply, stored', hholds, hdict, hcreated⟩ := hanswers.1 hmeets
        rw [and_iff_right hreply, and_iff_right hmeets, ← hdict, ← hcreated]
        exact ih hholds fun step hstep => hadd step (List.mem_cons_of_mem _ hstep)
      · have hpanic := hanswers.2 hmeets
        rw [hpanic]
        exact iff_of_false (fun hrun => by cases hrun.1) fun hall => hmeets hall.1

/-- A key without a value and an expiration holds no set yet. -/
theorem repliesAsMap_iff (hkey : w.db.slot (text key) = ⟨none, none⟩) {steps : List (Env σ × MapCommand)}
    (hadd : ∀ step ∈ steps, step.1.lib.addFloat = (· + ·)) :
    RepliesAsMap key w ∅ steps ↔ MeetAll false ∅ steps := by
  have hholds : Holds w (text key) (none : Option (ZSet σ)) := ⟨hkey, by simp⟩
  exact hholds.replies_iff hadd

end

noncomputable def Env.decimal : Env ℤ where
  lib := { Library.plain with
    parseFloat := parseInt 64
    formatFloat := formatInt }
  now := 0
  choices := (Env.plain 0).choices

theorem repliesAsMap_pair : RepliesAsMap (some (bytes "k")) (World.empty : World ℤ) ∅
    [(.decimal, .zAdd [some (bytes "1"), some (bytes "a")]), (.decimal, .zScore (some (bytes "a")))] := by
  have hparse : parseElements Env.decimal [some (bytes "1"), some (bytes "a")] = some [(bytes "a", 1)] := by
    decide
  refine (repliesAsMap_iff rfl (by simp [Env.decimal, Library.plain])).mpr
    ⟨fun elements _ helements => ?_, fun _ => ⟨1, ?_⟩, trivial⟩
  · rw [hparse, Option.some.injEq] at helements
    rw [← helements]
    exact ⟨fun _ => by decide, trivial⟩
  · simp [MapCommand.reply, hparse, inserted, text]

/-- The set says that every member is there, and a nil element is read. -/
theorem not_repliesAsMap_absent :
    ¬ RepliesAsMap (some (bytes "k")) (World.empty : World ℤ) ∅
      [(.decimal, .zIncrBy (some (bytes "1")) (some (bytes "a")))] ∧
    ¬ RepliesAsMap (some (bytes "k")) (World.empty : World ℤ) ∅
      [(.decimal, .zAdd [some (bytes "1"), some (bytes "a")]), (.decimal, .zScore (some (bytes "b")))] := by
  refine ⟨fun hrun => ?_, fun hrun => ?_⟩
  · have hpanic : value (execZIncrBy Env.decimal [some (bytes "k"), some (bytes "1"), some (bytes "a")])
        World.empty = none := rfl
    rw [RepliesAsMap, MapCommand.exec, hpanic] at hrun
    cases hrun.1
  · have hpanic : value (execZScore Env.decimal [some (bytes "k"), some (bytes "b")])
        (final (execZAdd Env.decimal [some (bytes "k"), some (bytes "1"), some (bytes "a")]) World.empty) =
          none := rfl
    rw [RepliesAsMap, RepliesAsMap, MapCommand.exec, MapCommand.exec, hpanic] at hrun
    cases hrun.2.1

end Traitor.Database
