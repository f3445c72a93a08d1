import Traitor.FailedCommands
import Traitor.Rewrite

namespace Traitor.Database

open Lib.Effects Lib.Strconv Protocol

variable {σ : Type} {env : Env σ} {ch : Choices} {w w' u : World σ} {key k : Bytes} {args : List Slice}

def Env.rechoose (env : Env σ) (ch : Choices) : Env σ := { env with choices := ch }

theorem rechoose_atTime (env : Env σ) (ch : Choices) : (env.rechoose ch).atTime env.now = env.rechoose ch := rfl

/-- Two values that no command tells apart: the heights of the nodes do not matter. -/
def Entity.Same : Entity σ → Entity σ → Prop
  | .zset z, .zset z' => z.dict = z'.dict ∧
      z.nodes.map (fun a => (a.score, a.member)) = z'.nodes.map fun a => (a.score, a.member)
  | e, e' => e = e'

def Slot.Agrees (s s' : Slot σ) : Prop :=
  Option.Rel Entity.Same s.data s'.data ∧
    s.ttl.map (Int.fdiv · millisecond) = s'.ttl.map (Int.fdiv · millisecond)

@[refl] theorem Entity.Same.refl (e : Entity σ) : e.Same e := by
  cases e with
  | zset z => exact ⟨rfl, rfl⟩
  | _ => rfl

/-- Only sorted sets are the same without being equal. -/
theorem Entity.same_iff_eq {e e' : Entity σ} (h : ∀ z, e ≠ .zset z) : e.Same e' ↔ e = e' := by
  cases e with
  | zset z => exact absurd rfl (h z)
  | _ => rfl

theorem Slot.Agrees.refl (s : Slot σ) : s.Agrees s := by
  refine ⟨?_, rfl⟩
  cases s.data with
  | none => exact .none
  | some e => exact .some (.refl e)

theorem Slot.agrees_of_eq {s s' : Slot σ} (h : s = s') : s.Agrees s' := h ▸ .refl s

theorem Slot.agrees_some_iff {e e' : Entity σ} {ttl : Option Int} :
    (⟨some e, ttl⟩ : Slot σ).Agrees ⟨some e', ttl⟩ ↔ e.Same e' := by
  simp [Slot.Agrees]

theorem Slot.agrees_ttl_iff {e : Entity σ} {t t' : Int} :
    (⟨some e, some t⟩ : Slot σ).Agrees ⟨some e, some t'⟩ ↔ t.fdiv millisecond = t'.fdiv millisecond := by
  have hsame : e.Same e := .refl e
  simp [Slot.Agrees, hsame]

theorem Slot.Agrees.data_eq {s s' : Slot σ} {e : Entity σ} (h : s.Agrees s') (hdata : s.data = some e)
    (he : ∀ z, e ≠ .zset z) : s'.data = some e := by
  obtain ⟨hsame, -⟩ := h
  rw [hdata] at hsame
  obtain ⟨e', hdata'⟩ : ∃ e', s'.data = some e' := by
    cases hs' : s'.data with
    | none =>
        rw [hs'] at hsame
        cases hsame
    | some e' => exact ⟨e', rfl⟩
  rw [hdata'] at hsame ⊢
  cases hsame with
  | some hsame => rw [(Entity.same_iff_eq he).mp hsame]

theorem NoneExpired.evict (h : NoneExpired env w) (key : Bytes) : w.db.evict env key = w.db := by
  rw [DB.evict, if_neg]
  rintro ⟨-, he⟩
  rw [DB.isExpired_slot, h key] at he
  cases he

theorem NoneExpired.live (h : NoneExpired env w) (key : Bytes) : w.db.live env key = (w.db.slot key).data := by
  rw [DB.live_slot, Slot.live, h key]
  rfl

theorem Kept.slot_eq (h : Kept env w w') (hfresh : NoneExpired env w) (key : Bytes) :
    w'.db.slot key = w.db.slot key := by
  rcases h key with hsame | hout
  · rw [DB.slot, hsame.1, hsame.2, DB.slot]
  · have hexpired := hout.1
    rw [DB.isExpired_slot, hfresh key] at hexpired
    cases hexpired

section

variable [LinearOrder σ] [Inhabited σ]

/-- A load of the lines that were handed on since `w`, from there, comes to what `w'` holds. -/
def Recovers (env : Env σ) (ch : Choices) (w w' : World σ) : Prop :=
  ∀ key, (w'.db.slot key).Agrees
    ((loadAof (env.rechoose ch) (w'.aof.drop w.aof.length) w).db.slot key)

/-- Nothing was handed on. -/
theorem recovers_nil_iff {db : DB σ} :
    Recovers env ch w { w with db := db } ↔ ∀ key, (db.slot key).Agrees (w.db.slot key) := by
  rw [Recovers, List.drop_length]
  rfl

theorem recovers_append_iff {lines : List CmdLine} (haof : w'.aof = w.aof ++ lines) :
    Recovers env ch w w' ↔ ∀ key, (w'.db.slot key).Agrees
      ((loadAof (env.rechoose ch) lines w).db.slot key) := by
  rw [Recovers, haof, List.drop_left]

omit [LinearOrder σ] [Inhabited σ] in
/-- Databases that differ under one key only. -/
theorem agrees_at_iff {db db' : DB σ} {f : Bytes → Slot σ} {s s' : Slot σ}
    (h : ∀ k, db.slot k = if k = key then s else f k)
    (h' : ∀ k, db'.slot k = if k = key then s' else f k) :
    (∀ k, (db.slot k).Agrees (db'.slot k)) ↔ s.Agrees s' := by
  constructor
  · intro hall
    have hkey := hall key
    rwa [h, h', if_pos rfl, if_pos rfl] at hkey
  · intro hs k
    rw [h, h']
    by_cases hk : k = key
    · rwa [if_pos hk, if_pos hk]
    · rw [if_neg hk, if_neg hk]
      exact .refl _

/-- A command that hands nothing on, and changes one key. -/
theorem recovers_silent_iff {db : DB σ} {s : Slot σ}
    (h : ∀ k, db.slot k = if k = key then s else w.db.slot k) :
    Recovers env ch w { w with db := db } ↔ s.Agrees (w.db.slot key) := by
  rw [recovers_nil_iff]
  apply agrees_at_iff h
  intro k
  by_cases hk : k = key
  · rw [if_pos hk, hk]
  · rw [if_neg hk]

theorem recovers_unlogged_iff {s : Slot σ} (haof : w'.aof = w.aof)
    (h : ∀ k, w'.db.slot k = if k = key then s else w.db.slot k) :
    Recovers env ch w w' ↔ s.Agrees (w.db.slot key) := by
  obtain ⟨db, aof⟩ := w'
  obtain rfl : aof = w.aof := haof
  exact recovers_silent_iff h

theorem Recovers.of_slot (haof : w'.aof = w.aof) (h : w'.db.slot = w.db.slot) : Recovers env ch w w' := by
  obtain ⟨db, aof⟩ := w'
  obtain rfl : aof = w.aof := haof
  exact recovers_nil_iff.mpr fun key => Slot.agrees_of_eq (congrFun h key)

theorem Recovers.of_kept (hfresh : NoneExpired env w) (haof : w'.aof = w.aof) (h : Kept env w w') :
    Recovers env ch w w' :=
  .of_slot haof (funext (h.slot_eq hfresh))

/-- The versions are not written down. -/
theorem recovers_versions_iff (versionMap : Bytes → UInt32) :
    Recovers env ch (w.versions versionMap) w' ↔ Recovers env ch w w' := by
  have hload : (loadAof (env.rechoose ch) (w'.aof.drop w.aof.length) (w.versions versionMap)).db.slot =
      (loadAof (env.rechoose ch) (w'.aof.drop w.aof.length) w).db.slot := loadAof_slots rfl
  exact forall_congr' fun key => by rw [← hload]; rfl

variable {c : CommandName} {name : String}

/-- A line leaves what its executor does. -/
theorem exec_slot (hname : cmdTable (toLower (bytes name)) = some c)
    (harity : validateArity (command env c).arity (cmdLine3 name args) = true) (w : World σ) :
    (exec env (cmdLine3 name args) w).2.db.slot = (final ((command env c).executor args) w).db.slot := by
  have hexec : ∃ versionMap, (exec env (cmdLine3 name args) w).2 =
      final ((command env c).executor args) (w.versions versionMap) := exec_command hname harity
  obtain ⟨versionMap, hw⟩ := hexec
  rw [hw]
  have hsimilar : Similar env Set.univ (w.versions versionMap) w := Similar.univ_iff.mpr rfl
  exact Similar.univ_iff.mp (command_alike c args (fun _ _ => trivial) (fun _ _ => trivial) _ _ hsimilar).2

/-- The command does what it did the first time, whatever is drawn. -/
def Steady (env : Env σ) (ch : Choices) (c : CommandName) (args : List Slice) : Prop :=
  (command (env.rechoose ch) c).executor args = (command env c).executor args

theorem arity_rechoose (env : Env σ) (ch : Choices) (c : CommandName) :
    (command (env.rechoose ch) c).arity = (command env c).arity := by
  cases c <;> rfl

theorem exec_again (hname : cmdTable (toLower (bytes name)) = some c)
    (harity : validateArity (command env c).arity (cmdLine3 name args) = true)
    (hsteady : Steady env ch c args) (w : World σ) :
    (exec (env.rechoose ch) (cmdLine3 name args) w).2.db.slot =
      (final ((command env c).executor args) w).db.slot := by
  rw [exec_slot hname (by rwa [arity_rechoose]), hsteady]

/-- A key that is lost, with nothing handed on. -/
theorem not_recovers_silent {db : DB σ} (key : Bytes) (h : ¬ (db.slot key).Agrees (w.db.slot key)) :
    ¬ Recovers env ch w { w with db := db } :=
  fun hrecovers => h (recovers_nil_iff.mp hrecovers key)

/-- A new value, with nothing handed on. -/
theorem not_recovers_put {db : DB σ} {e : Entity σ} (he : ∀ z, e ≠ .zset z)
    (hdata : (w.db.slot key).data ≠ some e) : ¬ Recovers env ch w { w with db := db.put key e } := by
  refine not_recovers_silent key fun h => hdata (h.data_eq ?_ he)
  rw [DB.slot_put, if_pos rfl]

def Logged (env : Env σ) (ch : Choices) (m : Exec σ Reply) (w : World σ) : Prop :=
  wp m (fun _ w' => Recovers env ch w w') w

namespace Logged

variable {m : Exec σ Reply}

theorem iff_final : Logged env ch m w ↔ Recovers env ch w (final m w) := wp_iff m _ w

theorem pure (reply : Reply) : Logged env ch (Pure.pure reply) w := .of_slot rfl rfl

theorem panics : Logged env ch Lib.Effects.panics w := .of_slot rfl rfl

theorem of_moves (hfresh : NoneExpired env w) (h : Moves (Quiet env) m) : Logged env ch m w :=
  wp_mono (h w) fun _ _ hquiet => .of_kept hfresh hquiet.1 (.of_quiet hquiet)

/-- A command that is quiet, or hands itself on as it came. -/
theorem of_journalsAt (hname : cmdTable (toLower (bytes name)) = some c)
    (harity : validateArity (command env c).arity (cmdLine3 name args) = true)
    (hsteady : Steady env ch c args) (hfresh : NoneExpired env w)
    (h : JournalsAt env (Verbatim name args) ((command env c).executor args) w) :
    Logged env ch ((command env c).executor args) w := by
  rw [iff_final]
  rcases (wp_iff _ _ w).mp h with hquiet | ⟨reply, lines, -, -, haof, rfl⟩
  · exact .of_kept hfresh hquiet.1 (.of_quiet hquiet)
  · refine (recovers_append_iff haof).mpr fun key => Slot.agrees_of_eq ?_
    rw [loadAof_cons, loadAof_nil, exec_again hname harity hsteady]

variable {α : Type} {view : Entity σ → Option α} (entity : α → Entity σ)
  (hview : ∀ e a, view e = some a → e = entity a) (hentity : ∀ a, view (entity a) = some a)
  (hfresh : NoneExpired env w)
include hview hentity hfresh

theorem getAs_iff {f : Except Reply (Option α) → Exec σ Reply} (herror : ∀ e, f (.error e) = return e)
    {reply : Reply} (hnone : f (.ok none) = return reply) :
    Logged env ch (getAs env view key >>= f) w ↔
      ∀ a, (w.db.slot key).data = some (entity a) → Logged env ch (f (.ok (some a))) w := by
  have hlook : Recovers env ch w { w with db := w.db.evict env key } :=
    .of_slot rfl (by rw [hfresh.evict])
  rw [Logged, wp_getAs_iff entity hview hentity herror fun _ => hlook, hfresh.live, hnone, wp_pure]
  exact and_iff_left fun _ => hlook

theorem getOrInit_iff {make : α} {f : Except Reply α → Exec σ Reply}
    (herror : ∀ e, f (.error e) = return e) :
    Logged env ch (getOrInit env view entity make key >>= f) w ↔
      (∀ a, (w.db.slot key).data = some (entity a) → Logged env ch (f (.ok a)) w) ∧
      ((w.db.slot key).data = none → wp (f (.ok make)) (fun _ w' => Recovers env ch w w')
        { w with db := w.db.put key (entity make) }) := by
  have hlook : Recovers env ch w { w with db := w.db.evict env key } :=
    .of_slot rfl (by rw [hfresh.evict])
  rw [Logged, wp_getOrInit_iff entity hview hentity herror fun _ => hlook, hfresh.live, hfresh.evict]
  rfl

end Logged

end

section

variable (env : Env σ) (ch : Choices)

theorem anyExists_rechoose (keys : List Bytes) : anyExists (env.rechoose ch) keys = anyExists env keys := by
  induction keys with
  | nil => rfl
  | cons key keys ih =>
      rw [anyExists, anyExists, ih]
      rfl

theorem insertFront_rechoose (key : Bytes) (l : StoredList Slice) (values : List Slice) :
    insertFront (env.rechoose ch) key l values = insertFront env key l values := by
  induction values generalizing l with
  | nil => rfl
  | cons value values ih =>
      rw [insertFront, insertFront]
      simp only [ih]
      rfl

theorem addBack_rechoose (key : Bytes) (l : StoredList Slice) (values : List Slice) :
    addBack (env.rechoose ch) key l values = addBack env key l values := by
  induction values generalizing l with
  | nil => rfl
  | cons value values ih =>
      rw [addBack, addBack]
      simp only [ih]
      rfl

theorem interLoop_rechoose (result : Option (Finset Bytes)) (keys : List Bytes) :
    interLoop (env.rechoose ch) result keys = interLoop env result keys := by
  induction keys generalizing result with
  | nil => rfl
  | cons key keys ih =>
      rw [interLoop, interLoop]
      simp only [ih]
      rfl

theorem unionLoop_rechoose (result : Option (Finset Bytes)) (keys : List Bytes) :
    unionLoop (env.rechoose ch) result keys = unionLoop env result keys := by
  induction keys generalizing result with
  | nil => rfl
  | cons key keys ih =>
      rw [unionLoop, unionLoop]
      simp only [ih]
      rfl

theorem diffLoop_rechoose (first : Bool) (result : Option (Finset Bytes)) (keys : List Bytes) :
    diffLoop (env.rechoose ch) first result keys = diffLoop env first result keys := by
  induction keys generalizing first result with
  | nil => rfl
  | cons key keys ih =>
      rw [diffLoop, diffLoop]
      simp only [ih]
      rfl

end

/-- The commands that draw nothing, of those that hand themselves on. -/
def steady : List CommandName :=
  [.setNx, .setEX, .mset, .mSetNX, .getSet, .getDel, .incr, .incrBy, .incrByFloat, .decr, .decrBy,
    .append, .setRange, .del, .persist, .rename, .renameNx, .lPush, .lPushX, .rPush, .rPushX, .lPop,
    .rPop, .rPopLPush, .lRem, .lSet, .hSet, .hSetNX, .hDel, .hMSet, .hIncrBy, .hIncrByFloat, .sAdd,
    .sRem, .sInterStore, .sUnionStore, .sDiffStore, .zPopMin, .zRem, .zRemRangeByScore,
    .zRemRangeByRank]

theorem steady_of_mem [LinearOrder σ] [Inhabited σ] {env : Env σ} {ch : Choices} {c : CommandName}
    (hc : c ∈ steady) (args : List Slice) : Steady env ch c args := by
  simp only [steady, List.mem_cons, List.not_mem_nil, or_false] at hc
  cases c <;> try (first | rfl | simp at hc)
  case mSetNX => simp only [Steady, command, execMSetNX, anyExists_rechoose]
  case lPush =>
    cases args <;> simp only [Steady, command, execLPush, insertFront_rechoose]
    rfl
  case lPushX =>
    cases args <;> simp only [Steady, command, execLPushX, insertFront_rechoose]
    rfl
  case rPush =>
    cases args <;> simp only [Steady, command, execRPush, addBack_rechoose]
    rfl
  case rPushX =>
    rcases args with _ | ⟨key, _ | ⟨value, rest⟩⟩ <;> simp only [Steady, command, execRPushX, addBack_rechoose]
    rfl
  case sInterStore =>
    cases args <;> simp only [Steady, command, execSInterStore, interLoop_rechoose]
    rfl
  case sUnionStore =>
    cases args <;> simp only [Steady, command, execSUnionStore, unionLoop_rechoose]
    rfl
  case sDiffStore =>
    cases args <;> simp only [Steady, command, execSDiffStore, diffLoop_rechoose]
    rfl

end Traitor.Database
