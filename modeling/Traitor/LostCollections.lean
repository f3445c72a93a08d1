import Mathlib.Data.List.Nodup
import Traitor.LostExpirations

namespace Traitor.Database

open Lib.Effects Lib.Strconv Protocol

variable {σ : Type} {env : Env σ} {ch : Choices} {w : World σ} {key : Bytes} {args : List Slice}

section

variable (env) (ch) (w) (args)

/-- `HDEL` takes an empty hash away and hands nothing on. -/
def HDelLoses : Prop :=
  ∃ key fields, args = key :: fields ∧ (w.db.slot (text key)).data = some (.hash ∅)

def SRemLoses : Prop :=
  ∃ key members, args = key :: members ∧ (w.db.slot (text key)).data = some (.set ∅)

/-- `HINCRBYFLOAT` hands nothing on for a field that is not there. -/
def HIncrByFloatLoses : Prop :=
  ∃ key field rawDelta rest, args = key :: field :: rawDelta :: rest ∧
    env.lib.isDecimal (text rawDelta) = true ∧
    ((w.db.slot (text key)).data = none ∨
      ∃ d, (w.db.slot (text key)).data = some (.hash d) ∧ d.lookup (text field) = none)

/-- `SPOP` of some of the members is handed on without them, and others are drawn by the replay. -/
def SPopLoses : Prop :=
  ∃ key rest s count member, args = key :: rest ∧ rest.length ≤ 1 ∧
    (w.db.slot (text key)).data = some (.set s) ∧ popCount rest = some count ∧ count < s.card ∧
    member ∈ (env.choices.order s).take count.toNat ∧ member ∉ (ch.order s).take count.toNat

end

theorem asHash_eq {e : Entity σ} {d : Dict HashValue} (h : e.asHash = some d) : e = .hash d := by
  cases e <;> simp_all [Entity.asHash]

section

variable {e e' : Entity σ} {gone logs : Prop} [Decidable gone] [Decidable logs] {name : String} {n : Int}

/-- The end of the commands that take elements out of a container, when a line is handed on for
every change. -/
theorem shrunk_journalsAt (hdata : w.db.data.lookup key = some e) (h : ¬ logs → e' = e ∧ ¬ gone) :
    JournalsAt env (Verbatim name args) (do
      putEntity key e'
      if gone then remove key
      if logs then addAof (cmdLine3 name args)
      return .int n) w := by
  by_cases hlogs : logs
  · refine Journals.of_commits (.put _ ?_) w
    simp only [if_pos hlogs]
    split
    · exact .bind (silent_remove _) fun _ => .log (.pure rfl (verbatim _ _))
    · exact .log (.pure rfl (verbatim _ _))
  · obtain ⟨rfl, hgone⟩ := h hlogs
    simp only [JournalsAt, putEntity, if_neg hgone, if_neg hlogs, wp_bind, wp_modifyDB, wp_pure]
    exact .inl ⟨rfl, DB.keeps_put hdata⟩

variable [LinearOrder σ] [Inhabited σ]

theorem shrunk_not_logged {line : CmdLine} (hdata : (w.db.slot key).data = some e) (hgone : gone)
    (hlogs : ¬ logs) :
    ¬ Logged env ch (do
      putEntity key e'
      if gone then remove key
      if logs then addAof line
      return .int n) w := by
  simp only [Logged, putEntity, remove, if_pos hgone, if_neg hlogs, wp_bind, wp_modifyDB, wp_pure]
  exact not_recovers_silent key (by simp [Slot.Agrees, Slot.empty, hdata])

end

section

variable {α : Type} {view : Entity σ → Option α} (entity : α → Entity σ)
  (hview : ∀ e a, view e = some a → e = entity a) (hentity : ∀ a, view (entity a) = some a)
  {kind : List CmdLine → Prop}
include hview hentity

theorem journalsAt_getAs {f : Except Reply (Option α) → Exec σ Reply} (herror : ∀ e, f (.error e) = return e)
    {reply : Reply} (hnone : f (.ok none) = return reply)
    (h : ∀ a, w.db.live env key = some (entity a) → JournalsAt env kind (f (.ok (some a))) w) :
    JournalsAt env kind (getAs env view key >>= f) w := by
  have hlook (w' : World σ) (reply : Reply) : Quiet env w { w with db := w.db.evict env key } :=
    ⟨rfl, DB.keeps_evict w.db key⟩
  refine (wp_getAs_iff entity hview hentity herror fun reply => .inl (hlook w reply)).mpr ⟨h, fun _ => ?_⟩
  rw [hnone]
  exact .inl (hlook w reply)

end

theorem removeFields_nonneg (d : Dict HashValue) (fields : List Bytes) : 0 ≤ (removeFields d fields).2 := by
  induction fields generalizing d with
  | nil => exact Int.le_refl 0
  | cons field fields ih =>
      have hrest := ih (d.erase field)
      simp only [removeFields]
      split <;> omega

/-- Nothing is taken out when nothing is counted. -/
theorem removeFields_zero {d : Dict HashValue} {fields : List Bytes} (h : (removeFields d fields).2 = 0) :
    (removeFields d fields).1 = d := by
  induction fields generalizing d with
  | nil => rfl
  | cons field fields ih =>
      have hrest := removeFields_nonneg (d.erase field) fields
      simp only [removeFields] at h ⊢
      cases hlookup : d.lookup field with
      | some value =>
          simp only [hlookup, Option.isSome_some, if_true] at h
          omega
      | none =>
          simp only [hlookup, Option.isSome_none, Bool.false_eq_true, if_false, Int.zero_add] at h
          rw [ih h, Lib.FiniteMaps.erase_absent hlookup]

theorem removeFields_empty (fields : List Bytes) : removeFields ∅ fields = (∅, 0) := by
  induction fields with
  | nil => rfl
  | cons field fields ih =>
      have herase : (∅ : Dict HashValue).erase field = ∅ := Lib.FiniteMaps.erase_absent (Finmap.lookup_empty field)
      simp [removeFields, herase, ih]

theorem keys_eq_zero {d : Dict HashValue} (h : d.keys.card = 0) : d = ∅ := by
  have hkeys := Finset.card_eq_zero.mp h
  apply Finmap.ext_lookup
  intro k
  rw [Finmap.lookup_empty, Finmap.lookup_eq_none, ← Finmap.mem_keys, hkeys]
  exact Finset.notMem_empty k

theorem removeMembers_nonneg (s : Finset Bytes) (members : List Bytes) : 0 ≤ (removeMembers s members).2 := by
  induction members generalizing s with
  | nil => exact Int.le_refl 0
  | cons member members ih =>
      have hrest := ih (s.erase member)
      simp only [removeMembers]
      split <;> omega

theorem removeMembers_zero {s : Finset Bytes} {members : List Bytes} (h : (removeMembers s members).2 = 0) :
    (removeMembers s members).1 = s := by
  induction members generalizing s with
  | nil => rfl
  | cons member members ih =>
      have hrest := removeMembers_nonneg (s.erase member) members
      simp only [removeMembers] at h ⊢
      by_cases hmem : member ∈ s
      · rw [if_pos hmem] at h
        omega
      · rw [if_neg hmem, Int.zero_add] at h
        rw [ih h, Finset.erase_eq_of_notMem hmem]

theorem removeMembers_empty (members : List Bytes) : removeMembers ∅ members = (∅, 0) := by
  induction members with
  | nil => rfl
  | cons member members ih => simp [removeMembers, ih]

theorem removeMembers_eq (s : Finset Bytes) (members : List Bytes) :
    (removeMembers s members).1 = s \ members.toFinset := by
  induction members generalizing s with
  | nil => simp [removeMembers]
  | cons member members ih =>
      simp only [removeMembers, ih, List.toFinset_cons]
      ext k
      simp only [Finset.mem_sdiff, Finset.mem_erase, Finset.mem_insert, not_or]
      tauto

section

variable [LinearOrder σ] [Inhabited σ]

theorem execHDel_logged_iff (hfresh : NoneExpired env w)
    (harity : validateArity (-3) (cmdLine3 "hdel" args) = true) :
    Logged env ch (execHDel env args) w ↔ ¬ HDelLoses w args := by
  rcases args with _ | ⟨key, fields⟩
  · exact iff_of_true .panics (by simp [HDelLoses])
  constructor
  · rintro h ⟨key', fields', heq, hdata⟩
    cases heq
    have hempty := (Logged.getAs_iff .hash (fun _ _ => asHash_eq) (fun _ => rfl) hfresh (fun _ => rfl)
      rfl).mp h ∅ hdata
    simp only [removeFields_empty] at hempty
    exact shrunk_not_logged hdata (by simp) (by omega) hempty
  · intro h
    apply Logged.of_journalsAt (c := .hDel) rfl harity (steady_of_mem (by decide) _) hfresh
    apply journalsAt_getAs .hash (fun _ _ => asHash_eq) (fun _ => rfl) (fun _ => rfl) rfl
    intro d hd
    rw [hfresh.live] at hd
    apply shrunk_journalsAt hd
    intro hlogs
    have hd' := removeFields_zero (le_antisymm (not_lt.mp hlogs) (removeFields_nonneg d (fields.map text)))
    rw [hd']
    refine ⟨rfl, fun hcard => h ⟨key, fields, rfl, ?_⟩⟩
    rw [hd, keys_eq_zero hcard]

theorem execSRem_logged_iff (hfresh : NoneExpired env w)
    (harity : validateArity (-3) (cmdLine3 "srem" args) = true) :
    Logged env ch (execSRem env args) w ↔ ¬ SRemLoses w args := by
  rcases args with _ | ⟨key, members⟩
  · exact iff_of_true .panics (by simp [SRemLoses])
  constructor
  · rintro h ⟨key', members', heq, hdata⟩
    cases heq
    have hempty := (Logged.getAs_iff .set (fun _ _ => asSet_eq) (fun _ => rfl) hfresh (fun _ => rfl)
      rfl).mp h ∅ hdata
    simp only [removeMembers_empty] at hempty
    exact shrunk_not_logged hdata (by simp) (by omega) hempty
  · intro h
    apply Logged.of_journalsAt (c := .sRem) rfl harity (steady_of_mem (by decide) _) hfresh
    apply journalsAt_getAs .set (fun _ _ => asSet_eq) (fun _ => rfl) (fun _ => rfl) rfl
    intro s hs
    rw [hfresh.live] at hs
    apply shrunk_journalsAt hs
    intro hlogs
    have hs' := removeMembers_zero (le_antisymm (not_lt.mp hlogs) (removeMembers_nonneg s (members.map text)))
    rw [hs']
    refine ⟨rfl, fun hcard => h ⟨key, members, rfl, ?_⟩⟩
    rw [hs, Finset.card_eq_zero.mp hcard]

theorem execHIncrByFloat_logged_iff (hfresh : NoneExpired env w)
    (harity : validateArity 4 (cmdLine3 "hincrbyfloat" args) = true) :
    Logged env ch (execHIncrByFloat env args) w ↔ ¬ HIncrByFloatLoses env w args := by
  rcases args with _ | ⟨key, _ | ⟨field, _ | ⟨rawDelta, rest⟩⟩⟩
  · exact iff_of_true .panics (by simp [HIncrByFloatLoses])
  · exact iff_of_true .panics (by simp [HIncrByFloatLoses])
  · exact iff_of_true .panics (by simp [HIncrByFloatLoses])
  constructor
  · rintro h ⟨key', field', rawDelta', rest', heq, hdecimal, hor⟩
    cases heq
    rw [execHIncrByFloat, if_neg (not_not.mpr hdecimal)] at h
    have hiff := (Logged.getOrInit_iff .hash (fun _ _ => asHash_eq) (fun _ => rfl) hfresh fun _ => rfl).mp h
    rcases hor with hnone | ⟨d, hd, hlookup⟩
    · have hnew := hiff.2 hnone
      simp only [Finmap.lookup_empty, putEntity, wp_bind, wp_modifyDB, wp_pure] at hnew
      exact not_recovers_put (by rintro z ⟨⟩) (by simp [hnone]) hnew
    · have hthere := hiff.1 d hd
      simp only [Logged, hlookup, putEntity, wp_bind, wp_modifyDB, wp_pure] at hthere
      refine absurd hthere (not_recovers_put (by rintro z ⟨⟩) fun heq => ?_)
      have hd' := Entity.hash.inj (Option.some.inj (hd.symm.trans heq))
      rw [hd', Finmap.lookup_insert] at hlookup
      cases hlookup
  · intro h
    apply Logged.of_journalsAt (c := .hIncrByFloat) rfl harity (steady_of_mem (by decide) _) hfresh
    simp only [command, execHIncrByFloat]
    cases hdecimal : env.lib.isDecimal (text rawDelta) with
    | false => exact Journals.pure _ w
    | true =>
        rw [if_neg (by simp)]
        refine (wp_getOrInit_iff .hash (fun _ _ => asHash_eq) (fun _ => rfl) (fun _ => rfl) fun reply =>
          .inl ⟨rfl, DB.keeps_evict w.db (text key)⟩).mpr ⟨fun d hd => ?_, fun hnone => ?_⟩
        · rw [hfresh.live] at hd
          dsimp only
          split
          · next hlookup => exact absurd ⟨key, field, rawDelta, rest, rfl, hdecimal, .inr ⟨d, hd, hlookup⟩⟩ h
          · exact Journals.of_moves .panics w
          · split
            · exact Journals.pure _ w
            · exact Journals.of_commits (.put _ (.log (.pure (by simp) (verbatim _ _)))) w
        · rw [hfresh.live] at hnone
          exact absurd ⟨key, field, rawDelta, rest, rfl, hdecimal, .inl hnone⟩ h

omit [LinearOrder σ] [Inhabited σ] in
def left (c : Choices) (s : Finset Bytes) (count : Int) : Finset Bytes :=
  if s.card ≤ count then ∅ else s \ ((c.order s).take count.toNat).toFinset

omit [LinearOrder σ] [Inhabited σ] in
theorem left_eq_iff (c : Choices) (s : Finset Bytes) {count : Int} (hpos : 0 < count) :
    left c s count = left ch s count ↔ ¬ (count < s.card ∧
      ∃ member ∈ (c.order s).take count.toNat, member ∉ (ch.order s).take count.toNat) := by
  rw [left, left]
  by_cases hle : s.card ≤ count
  · rw [if_pos hle, if_pos hle]
    exact iff_of_true rfl fun h => absurd h.1 (by omega)
  · rw [if_neg hle, if_neg hle]
    have hcard (c : Choices) : ((c.order s).take count.toNat).toFinset.card = count.toNat := by
      rw [List.toFinset_card_of_nodup ((c.order_nodup s).sublist (List.take_sublist _ _)), List.length_take]
      have hlength : (c.order s).length = s.card := c.length_order s
      omega
    have hsub (c : Choices) : ((c.order s).take count.toNat).toFinset ⊆ s := fun member h =>
      (c.mem_order s member).mp (List.mem_of_mem_take (List.mem_toFinset.mp h))
    constructor
    · rintro heq ⟨-, member, hmem, hnot⟩
      have hdiff : member ∈ s \ ((ch.order s).take count.toNat).toFinset :=
        Finset.mem_sdiff.mpr ⟨hsub c (List.mem_toFinset.mpr hmem), fun h => hnot (List.mem_toFinset.mp h)⟩
      rw [← heq] at hdiff
      exact (Finset.mem_sdiff.mp hdiff).2 (List.mem_toFinset.mpr hmem)
    · intro h
      have hsame : ((c.order s).take count.toNat).toFinset = ((ch.order s).take count.toNat).toFinset := by
        refine Finset.eq_of_subset_of_card_le (fun member hmem => ?_) (by rw [hcard, hcard])
        by_contra hnot
        exact h ⟨by omega, member, List.mem_toFinset.mp hmem, fun h' => hnot (List.mem_toFinset.mpr h')⟩
      rw [hsame]

omit [LinearOrder σ] [Inhabited σ] in
/-- When all are drawn the empty texts among them do not matter. -/
theorem randomKeys_left (c : Choices) (s : Finset Bytes) {count : Int} (hpos : 0 < count) :
    ∃ members, randomKeys c s (if s.card < count then (s.card : Int) else count) = some members ∧
      (removeMembers s members).1 = left c s count := by
  by_cases hle : s.card ≤ count
  · have hcount : (if s.card < count then (s.card : Int) else count) = s.card := by
      split <;> omega
    refine ⟨dictKeys c s, by rw [hcount, randomKeys, if_pos le_rfl], ?_⟩
    rw [removeMembers_eq, left, if_pos hle, Finset.sdiff_eq_empty_iff_subset]
    intro member hmem
    rw [List.mem_toFinset, dictKeys, List.mem_append]
    exact .inr ((c.mem_order s member).mpr hmem)
  · refine ⟨(c.order s).take count.toNat, ?_, by rw [removeMembers_eq, left, if_neg hle]⟩
    rw [if_neg (by omega), randomKeys, if_neg hle, if_neg (by omega)]

omit [LinearOrder σ] [Inhabited σ] in
theorem popMembers_final (hfresh : NoneExpired env w) {key : Slice} {rest : List Slice} {s : Finset Bytes}
    {count : Int} (hs : (w.db.slot (text key)).data = some (.set s)) (hcount : popCount rest = some count) :
    final (popMembers env key rest) w = ⟨w.db.put (text key) (.set (left env.choices s count)),
      if s = ∅ then w.aof else w.aof ++ [cmdLine3 "spop" (key :: rest)]⟩ := by
  apply final_eq
  have hpos := popCount_pos hcount
  have hview : w.db.view env Entity.asSet (text key) = .ok (some s) := by
    rw [DB.view, hfresh.live, hs]
    rfl
  obtain ⟨members, hdraw, hleft⟩ := randomKeys_left env.choices s hpos
  rw [popMembers, getAsSet, wp_bind, wp_getAs, hview, hfresh.evict]
  simp only [hcount, hdraw, hleft, setSet, putEntity, wp_bind, wp_modifyDB]
  by_cases hs' : s = ∅
  · rw [if_neg (by simp [hs', hpos]), if_pos hs']
    rfl
  · have hcard : 0 < s.card := Finset.card_pos.mpr (Finset.nonempty_iff_ne_empty.mpr hs')
    rw [if_pos (by split <;> omega), if_neg hs']
    rfl

theorem popMembers_logged_iff (hfresh : NoneExpired env w) (key : Slice) (rest : List Slice)
    (hpop : ∀ env : Env σ, execSPop env (key :: rest) = popMembers env key rest) :
    Logged env ch (popMembers env key rest) w ↔ ¬ ∃ s count member,
      (w.db.slot (text key)).data = some (.set s) ∧ popCount rest = some count ∧ count < s.card ∧
        member ∈ (env.choices.order s).take count.toNat ∧ member ∉ (ch.order s).take count.toNat := by
  have hlook : Logged env ch (popMembers env key rest) w ↔ _ :=
    Logged.getAs_iff .set (fun _ _ => asSet_eq) (fun _ => rfl) hfresh (fun _ => rfl) rfl
  by_cases hset : ∃ s, (w.db.slot (text key)).data = some (.set s)
  · obtain ⟨s, hs⟩ := hset
    cases hcount : popCount rest with
    | none =>
        refine iff_of_true (hlook.mpr fun s' hs' => ?_) (by simp)
        simp only [hcount]
        exact .pure _
    | some count =>
        simp only [hs, Option.some.injEq, Entity.set.injEq, exists_and_left, exists_eq_left']
        rw [← left_eq_iff env.choices s (popCount_pos hcount), Logged.iff_final, popMembers_final hfresh hs hcount]
        by_cases hs' : s = ∅
        · subst hs'
          have hleft (c : Choices) : left c ∅ count = ∅ := by
            rw [left]
            split <;> simp
          rw [if_pos rfl, hleft, hleft]
          refine iff_of_true (.of_slot rfl (funext fun k => ?_)) rfl
          by_cases hk : k = text key
          · rw [DB.slot_put, if_pos hk, hk, ← hs]
          · rw [DB.slot_put, if_neg hk]
        · have hload (k : Bytes) :
              (loadAof (env.rechoose ch) [cmdLine3 "spop" (key :: rest)] w).db.slot k =
                if k = text key then ⟨some (.set (left ch s count)), (w.db.slot (text key)).ttl⟩
                else w.db.slot k := by
            have harity : validateArity (command (env.rechoose ch) .sPop).arity
                (cmdLine3 "spop" (key :: rest)) = true := by
              simp [validateArity, command, cmdLine3]
              omega
            have hfresh' : NoneExpired (env.rechoose ch) w := hfresh
            have hfinal : final ((command (env.rechoose ch) .sPop).executor (key :: rest)) w = _ :=
              (congrArg (final · w) (hpop (env.rechoose ch))).trans
                (popMembers_final hfresh' hs hcount)
            rw [loadAof_cons, loadAof_nil, exec_slot (c := .sPop) rfl harity, hfinal]
            exact DB.slot_put _
          rw [if_neg hs', recovers_append_iff rfl, agrees_at_iff (fun k => DB.slot_put _) hload,
            Slot.agrees_some_iff, Entity.same_iff_eq (by rintro z ⟨⟩), Entity.set.injEq]
  · refine iff_of_true (hlook.mpr fun s hs => absurd ⟨s, hs⟩ hset) ?_
    rintro ⟨s, count, member, hs, -⟩
    exact hset ⟨s, hs⟩

theorem execSPop_logged_iff (hfresh : NoneExpired env w) :
    Logged env ch (execSPop env args) w ↔ ¬ SPopLoses env ch w args := by
  have hloses (key : Slice) {rest : List Slice} (hrest : rest.length ≤ 1) :
      SPopLoses env ch w (key :: rest) ↔ ∃ s count member,
        (w.db.slot (text key)).data = some (.set s) ∧ popCount rest = some count ∧ count < s.card ∧
          member ∈ (env.choices.order s).take count.toNat ∧ member ∉ (ch.order s).take count.toNat := by
    constructor
    · rintro ⟨key', rest', s, count, member, heq, -, h⟩
      cases heq
      exact ⟨s, count, member, h⟩
    · rintro ⟨s, count, member, h⟩
      exact ⟨key, rest, s, count, member, rfl, hrest, h⟩
  rcases args with _ | ⟨key, _ | ⟨rawCount, _ | ⟨more, rest⟩⟩⟩
  · exact iff_of_true (.pure _) (by simp [SPopLoses])
  · rw [hloses key (by simp)]
    exact popMembers_logged_iff hfresh key [] fun _ => rfl
  · rw [hloses key (by simp)]
    exact popMembers_logged_iff hfresh key [rawCount] fun _ => rfl
  · apply iff_of_true (.pure _)
    rintro ⟨key', rest', s, count, member, heq, hlength, -⟩
    cases heq
    simp at hlength

end

end Traitor.Database
