import Traitor.Watching

namespace Traitor.Transaction

open Database Lib.Effects Lib.Strconv Protocol

namespace Connection

def Fresh (conn : Connection) : Prop :=
  conn.multiState = false ∧ conn.queue = [] ∧ conn.watching = ∅ ∧ conn.txErrors = []

/-- The lines that are executed at once in a `MULTI` block. -/
def isControl (name : Slice) : Bool :=
  toLower (text name) ∈ [bytes "multi", bytes "discard", bytes "exec", bytes "watch"]

def Rejects {σ : Type} [LinearOrder σ] [Inhabited σ] (env : Env σ) (conn : Connection) :
    CmdLine → Prop
  | [] => False
  | name :: args => conn.multiState = true ∧ isControl name = false ∧
      ∃ e, lookupCommand env name args = .error e

/-- The connection with some replies given before. -/
def after (conn : Connection) (replies : List Reply) : Connection :=
  { conn with replies := replies ++ conn.replies }

theorem Fresh.eq {conn : Connection} (h : conn.Fresh) :
    { newConn with stage := conn.stage }.after conn.replies = conn := by
  obtain ⟨hmulti, hqueue, hwatching, htx⟩ := h
  cases conn
  simp_all [newConn, after]

end Connection

section

variable {ι σ : Type} [DecidableEq ι] [LinearOrder σ] [Inhabited σ]

structure Entry (ι σ : Type) where
  env : Env σ
  conn : ι
  system : System ι σ
  event : Event

inductive Trace : List (Entry ι σ) → System ι σ → System ι σ → Prop
  | nil (s : System ι σ) : Trace [] s s
  | snoc {entries : List (Entry ι σ)} {s t u : System ι σ} {env : Env σ} {i : ι} {e : Event}
      (h : Trace entries s t) (hstep : Step env i t e u) :
      Trace (entries ++ [⟨env, i, t, e⟩]) s u

def Entry.Rejects (entry : Entry ι σ) (i : ι) : Prop :=
  entry.conn = i ∧ ∃ line, entry.event = .request line ∧
    (entry.system.conns i).Rejects entry.env line

def EndsBlock (i : ι) (s s' : System ι σ) : Prop :=
  (s.conns i).multiState = true ∧ (s'.conns i).multiState = false

def System.after (s : System ι σ) (replies : ι → List Reply) : System ι σ :=
  ⟨s.world, fun i => (s.conns i).after (replies i)⟩

def Entry.after (entry : Entry ι σ) (replies : ι → List Reply) : Entry ι σ :=
  { entry with system := entry.system.after replies }

def System.renew (s : System ι σ) (i : ι) : System ι σ :=
  s.update i { newConn with stage := (s.conns i).stage } s.world

/-- The connection has the state of a new one, and whatever comes after goes on as with a
new one, but for the replies up to here. -/
def Independent (i : ι) (s : System ι σ) : Prop :=
  (s.conns i).Fresh ∧ ∃ replies, ∀ entries t, Trace entries s t →
    ∃ entries' t', Trace entries' (s.renew i) t' ∧
      entries = entries'.map (·.after replies) ∧ t = t'.after replies

end

namespace Connection

variable (conn : Connection) (replies : List Reply)

@[simp] theorem after_multiState : (conn.after replies).multiState = conn.multiState := rfl

@[simp] theorem after_txErrors : (conn.after replies).txErrors = conn.txErrors := rfl

@[simp] theorem after_setMultiState (state : Bool) :
    (conn.after replies).setMultiState state = (conn.setMultiState state).after replies := by
  cases state with
  | false => rfl
  | true => rfl

theorem write_after (reply : Reply) :
    (conn.after replies).write reply = (conn.write reply).after replies := by
  simp only [after, write, List.append_assoc]

theorem startMulti_after : (conn.after replies).startMulti = conn.startMulti.after replies := by
  simp only [startMulti, after_multiState, after_setMultiState, write_after]
  split <;> rfl

theorem discardMulti_after : (conn.after replies).discardMulti = conn.discardMulti.after replies := by
  simp only [discardMulti, after_multiState, after_setMultiState, write_after]
  split <;> rfl

theorem execMulti_after : (conn.after replies).execMulti = conn.execMulti.after replies := by
  simp only [execMulti, after_multiState, after_txErrors, after_setMultiState, write_after]
  split_ifs <;> rfl

theorem watch_after (key : Bytes) (version : UInt32) (keys : List Bytes) :
    (conn.after replies).watch key version keys = (conn.watch key version keys).after replies := by
  by_cases h : keys = []
  · simp only [watch, after, if_pos h, write, List.append_assoc]
  · simp only [watch, after, if_neg h]

end Connection

section

variable {σ : Type} [LinearOrder σ] [Inhabited σ] (env : Env σ) (conn : Connection)
  (replies : List Reply)

theorem enqueueCmd_after (name : Slice) (args : List Slice) :
    enqueueCmd env (conn.after replies) name args = (enqueueCmd env conn name args).after replies := by
  unfold enqueueCmd
  cases lookupCommand env name args with
  | error e => exact (conn.addTxError e).write_after replies e
  | ok c => exact Connection.write_after { conn with queue := conn.queue ++ [name :: args] } replies _

theorem execNormalCommand_after (name : Slice) (args : List Slice) :
    execNormalCommand env (conn.after replies) name args =
      (execNormalCommand env conn name args).after replies := by
  unfold execNormalCommand
  cases lookupCommand env name args with
  | error e => exact conn.write_after replies e
  | ok c => rfl

theorem exec_after (line : CmdLine) :
    exec env (conn.after replies) line = (exec env conn line).after replies := by
  cases line with
  | nil => exact conn.write_after replies _
  | cons name args =>
      simp only [exec, conn.after_multiState, conn.write_after, conn.startMulti_after, conn.discardMulti_after,
        conn.execMulti_after, enqueueCmd_after, execNormalCommand_after]
      split_ifs <;> rfl

theorem execLocked_after (w : World σ) :
    execLocked env (conn.after replies) w =
      ((execLocked env conn w).1.after replies, (execLocked env conn w).2) := by
  unfold execLocked
  have hwatching : (conn.after replies).watching = conn.watching := rfl
  have hqueue : (conn.after replies).queue = conn.queue := rfl
  by_cases hchanged : isWatchingChanged w.db conn.watching = true
  · simp only [hwatching, if_pos hchanged]
    rfl
  · simp only [hwatching, hqueue, if_neg hchanged]
    rcases value (execQueue env conn.queue) w with _ | _ | results
    · rfl
    · rfl
    · rfl

end

section

variable {ι σ : Type} [DecidableEq ι] [LinearOrder σ] [Inhabited σ] {env : Env σ} {i : ι} {e : Event}
  {s s' : System ι σ}

omit [LinearOrder σ] [Inhabited σ] in
theorem System.update_after (s : System ι σ) (i : ι) (conn : Connection) (w : World σ)
    (replies : ι → List Reply) :
    (s.update i conn w).after replies = (s.after replies).update i (conn.after (replies i)) w := by
  apply congrArg (System.mk w)
  funext j
  by_cases hj : j = i
  · subst hj
    simp [System.update, System.after]
  · simp [System.update, System.after, hj]

theorem Step.of_after {replies : ι → List Reply} {u : System ι σ} (h : Step env i (s.after replies) e u) :
    ∃ t, Step env i s e t ∧ u = t.after replies := by
  cases h with
  | request line h =>
      refine ⟨_, .request line h, ?_⟩
      rw [System.update_after, ← exec_after]
      rfl
  | watch key keys h =>
      refine ⟨_, .watch key keys h, ?_⟩
      rw [System.update_after, ← Connection.watch_after]
      rfl
  | getVersion key keys next h =>
      refine ⟨_, .getVersion key keys next h, ?_⟩
      rw [System.update_after]
      rfl
  | putVersion key version keys next h =>
      refine ⟨_, .putVersion key version keys next h, ?_⟩
      rw [System.update_after]
      rfl
  | execute c args h hfree =>
      refine ⟨_, .execute c args h hfree, ?_⟩
      rw [System.update_after]
      rfl
  | exec h hfree =>
      refine ⟨_, .exec h hfree, ?_⟩
      have hlocked := execLocked_after env (s.conns i) (replies i) s.world
      rw [System.update_after]
      exact congrArg (fun r => (s.after replies).update i r.1 r.2) hlocked
  | unlock write read reply h =>
      refine ⟨_, .unlock write read reply h, ?_⟩
      rw [System.update_after, ← Connection.write_after]
      rfl

theorem Trace.of_after {replies : ι → List Reply} {entries : List (Entry ι σ)} {u : System ι σ}
    (h : Trace entries (s.after replies) u) :
    ∃ entries' t, Trace entries' s t ∧ entries = entries'.map (·.after replies) ∧
      u = t.after replies := by
  generalize hs : s.after replies = s₀ at h
  induction h with
  | nil _ =>
      subst hs
      exact ⟨[], s, .nil s, rfl, rfl⟩
  | snoc _ hstep ih =>
      obtain ⟨entries', t, htrace, rfl, rfl⟩ := ih hs
      obtain ⟨u, hu, rfl⟩ := hstep.of_after
      exact ⟨_, u, htrace.snoc hu, by simp [Entry.after], rfl⟩

/-- With the state of a new connection, only the replies given before make a difference. -/
theorem independent_of_fresh (h : (s.conns i).Fresh) : Independent i s := by
  refine ⟨h, Function.update (fun _ => []) i (s.conns i).replies, fun entries t htrace => ?_⟩
  apply Trace.of_after
  have hsame : (s.renew i).after (Function.update (fun _ => []) i (s.conns i).replies) = s := by
    apply congrArg (System.mk s.world)
    funext j
    by_cases hj : j = i
    · subst hj
      simp [System.renew, System.update, h.eq]
    · simp [System.renew, System.update, Connection.after, hj]
  exact hsame.symm ▸ htrace

end

section

variable {σ : Type} [LinearOrder σ] [Inhabited σ] (env : Env σ) (conn : Connection)

theorem startMulti_txErrors : conn.startMulti.txErrors = conn.txErrors := by
  rw [Connection.startMulti]
  split <;> rfl

theorem discardMulti_txErrors : conn.discardMulti.txErrors = conn.txErrors := by
  rw [Connection.discardMulti]
  split <;> rfl

theorem execMulti_txErrors : conn.execMulti.txErrors = conn.txErrors := by
  rw [Connection.execMulti]
  split_ifs <;> rfl

theorem enqueueCmd_txErrors (name : Slice) (args : List Slice) :
    (enqueueCmd env conn name args).txErrors = [] ↔
      conn.txErrors = [] ∧ ¬ ∃ e, lookupCommand env name args = .error e := by
  rw [enqueueCmd]
  cases lookupCommand env name args with
  | error e => simp [Connection.write, Connection.addTxError]
  | ok c => simp [Connection.write]

theorem execNormalCommand_txErrors (name : Slice) (args : List Slice) :
    (execNormalCommand env conn name args).txErrors = conn.txErrors := by
  rw [execNormalCommand]
  cases lookupCommand env name args with
  | error e => rfl
  | ok c => rfl

/-- A line that is not queued or executed is one of the four that control a transaction, or
wrong. -/
theorem exec_cases (name : Slice) (args : List Slice) :
    (Connection.isControl name = false ∧ exec env conn (name :: args) =
      if conn.multiState then enqueueCmd env conn name args
      else execNormalCommand env conn name args) ∨
    (Connection.isControl name = true ∧
      (exec env conn (name :: args) = conn.startMulti ∨
        exec env conn (name :: args) = conn.discardMulti ∨
        exec env conn (name :: args) = conn.execMulti ∨
        (∃ reply, exec env conn (name :: args) = conn.write reply) ∨
        ∃ keys, exec env conn (name :: args) = { conn with stage := .watching keys })) := by
  have hwrong (X : Connection) (reply : Reply) : (if args = [] then X else conn.write reply) = X ∨
      ∃ r, (if args = [] then X else conn.write reply) = conn.write r := by
    by_cases h : args = []
    · exact .inl (if_pos h)
    · exact .inr ⟨reply, if_neg h⟩
  simp only [exec, Connection.isControl]
  by_cases hmulti : toLower (text name) = bytes "multi"
  · refine .inr ⟨by simp [hmulti], ?_⟩
    rw [if_pos hmulti]
    rcases hwrong conn.startMulti (.argNumErr (toLower (text name))) with h | h
    · exact .inl h
    · exact .inr (.inr (.inr (.inl h)))
  rw [if_neg hmulti]
  by_cases hdiscard : toLower (text name) = bytes "discard"
  · refine .inr ⟨by simp [hdiscard], ?_⟩
    rw [if_pos hdiscard]
    rcases hwrong conn.discardMulti (.argNumErr (toLower (text name))) with h | h
    · exact .inr (.inl h)
    · exact .inr (.inr (.inr (.inl h)))
  rw [if_neg hdiscard]
  by_cases hexec : toLower (text name) = bytes "exec"
  · refine .inr ⟨by simp [hexec], ?_⟩
    rw [if_pos hexec]
    rcases hwrong conn.execMulti (.argNumErr (toLower (text name))) with h | h
    · exact .inr (.inr (.inl h))
    · exact .inr (.inr (.inr (.inl h)))
  rw [if_neg hexec]
  by_cases hwatch : toLower (text name) = bytes "watch"
  · refine .inr ⟨by simp [hwatch], ?_⟩
    rw [if_pos hwatch]
    by_cases h : args = []
    · exact .inr (.inr (.inr (.inl ⟨_, if_pos h⟩)))
    · exact .inr (.inr (.inr (.inr ⟨_, if_neg h⟩)))
  rw [if_neg hwatch]
  exact .inl ⟨by simp [hmulti, hdiscard, hexec, hwatch], rfl⟩

/-- Only a rejected line adds an error to those of a transaction. -/
theorem exec_txErrors (line : CmdLine) :
    (exec env conn line).txErrors = [] ↔ conn.txErrors = [] ∧ ¬ conn.Rejects env line := by
  cases line with
  | nil => simp [exec, Connection.Rejects, Connection.write]
  | cons name args =>
      rcases exec_cases env conn name args with ⟨hname, heq⟩ | ⟨hname, heq⟩
      · rw [heq]
        by_cases hmulti : conn.multiState = true
        · rw [if_pos hmulti, enqueueCmd_txErrors]
          simp [Connection.Rejects, hmulti, hname]
        · rw [if_neg hmulti, execNormalCommand_txErrors]
          simp [Connection.Rejects, hmulti]
      · have hsame : (exec env conn (name :: args)).txErrors = conn.txErrors := by
          rcases heq with heq | heq | heq | ⟨reply, heq⟩ | ⟨keys, heq⟩
          · rw [heq, startMulti_txErrors]
          · rw [heq, discardMulti_txErrors]
          · rw [heq, execMulti_txErrors]
          · rw [heq, Connection.write]
          · rw [heq]
        simp [hsame, Connection.Rejects, hname]

/-- What ends a block clears all but the errors. -/
theorem exec_ends {line : CmdLine} (h : conn.multiState = true)
    (h' : (exec env conn line).multiState = false) :
    (exec env conn line).queue = [] ∧ (exec env conn line).watching = ∅ := by
  cases line with
  | nil => exact absurd (h.symm.trans h') (by decide)
  | cons name args =>
      rcases exec_cases env conn name args with ⟨hname, heq⟩ | ⟨hname, heq⟩
      · rw [if_pos h, enqueueCmd] at heq
        have hstay : (exec env conn (name :: args)).multiState = true := by
          rw [heq]
          cases lookupCommand env name args with
          | error e => exact h
          | ok c => exact h
        exact absurd (hstay.symm.trans h') (by decide)
      · rcases heq with heq | heq | heq | ⟨reply, heq⟩ | ⟨keys, heq⟩
        · rw [heq, Connection.startMulti, if_pos h] at h'
          exact absurd (h.symm.trans h') (by decide)
        · rw [heq, Connection.discardMulti, if_pos h]
          exact ⟨rfl, rfl⟩
        · by_cases htx : conn.txErrors = []
          · rw [heq, Connection.execMulti, if_pos h, if_pos htx] at h'
            exact absurd (h.symm.trans h') (by decide)
          · rw [heq, Connection.execMulti, if_pos h, if_neg htx]
            exact ⟨rfl, rfl⟩
        · rw [heq] at h'
          exact absurd (h.symm.trans h') (by decide)
        · rw [heq] at h'
          exact absurd (h.symm.trans h') (by decide)

theorem multiState_of_rejects {line : CmdLine} (h : conn.Rejects env line) :
    (exec env conn line).multiState = true := by
  cases line with
  | nil => exact h.elim
  | cons name args =>
      obtain ⟨hmulti, hname, e, he⟩ := h
      rcases exec_cases env conn name args with ⟨-, heq⟩ | ⟨hcontrol, -⟩
      · rw [heq, if_pos hmulti, enqueueCmd, he]
        exact hmulti
      · exact absurd (hname.symm.trans hcontrol) (by decide)

theorem execLocked_transaction (w : World σ) :
    (execLocked env conn w).1.queue = [] ∧ (execLocked env conn w).1.watching = ∅ ∧
      (execLocked env conn w).1.txErrors = conn.txErrors := by
  rw [execLocked]
  by_cases hchanged : isWatchingChanged w.db conn.watching = true
  · rw [if_pos hchanged]
    exact ⟨rfl, rfl, rfl⟩
  · rw [if_neg hchanged]
    rcases value (execQueue env conn.queue) w with _ | _ | results
    · exact ⟨rfl, rfl, rfl⟩
    · exact ⟨rfl, rfl, rfl⟩
    · exact ⟨rfl, rfl, rfl⟩

theorem watch_transaction (key : Bytes) (version : UInt32) (keys : List Bytes) :
    (conn.watch key version keys).multiState = conn.multiState ∧
      (conn.watch key version keys).txErrors = conn.txErrors := by
  rw [Connection.watch]
  by_cases h : keys = []
  · rw [if_pos h]
    exact ⟨rfl, rfl⟩
  · rw [if_neg h]
    exact ⟨rfl, rfl⟩

end

section

variable {ι σ : Type} [DecidableEq ι] [LinearOrder σ] [Inhabited σ] {env : Env σ} {i c : ι} {e : Event}
  {s s' : System ι σ}

theorem Step.txErrors (h : Step env i s e s') (c : ι) :
    (s'.conns c).txErrors = [] ↔
      (s.conns c).txErrors = [] ∧ ¬ Entry.Rejects ⟨env, i, s, e⟩ c := by
  by_cases hc : c = i
  · subst hc
    cases h with
    | request line h => simp [System.update, exec_txErrors, Entry.Rejects]
    | watch key keys h => simp [System.update, watch_transaction, Entry.Rejects]
    | exec h hfree => simp [System.update, execLocked_transaction, Entry.Rejects]
    | unlock write read reply h => simp [System.update, Connection.write, Entry.Rejects]
    | execute cmd args h hfree => simp [System.update, executeLocked, Entry.Rejects]
    | getVersion key keys next h => simp [System.update, Entry.Rejects]
    | putVersion key version keys next h => simp [System.update, Entry.Rejects]
  · have hother : s'.conns c = s.conns c := by
      cases h <;> exact Function.update_of_ne hc _ _
    rw [hother]
    simp [Entry.Rejects, Ne.symm hc]

/-- The errors of a connection are those of all its rejected lines. -/
theorem Trace.txErrors {entries : List (Entry ι σ)} (h : Trace entries s s') (c : ι) :
    (s'.conns c).txErrors = [] ↔
      (s.conns c).txErrors = [] ∧ ∀ entry ∈ entries, ¬ entry.Rejects c := by
  induction h with
  | nil _ => simp
  | snoc _ hstep ih =>
      rw [hstep.txErrors, ih]
      simp [or_imp, forall_and, and_assoc]

theorem Step.ends (h : Step env i s e s') (hends : EndsBlock c s s') :
    (s'.conns c).queue = [] ∧ (s'.conns c).watching = ∅ := by
  obtain ⟨hin, hout⟩ := hends
  by_cases hc : c = i
  · subst hc
    cases h with
    | request line h =>
        simp only [System.update, Function.update_self] at hout ⊢
        exact exec_ends env _ hin hout
    | exec h hfree =>
        simp only [System.update, Function.update_self]
        exact ⟨(execLocked_transaction env _ _).1, (execLocked_transaction env _ _).2.1⟩
    | watch key keys h => simp [System.update, watch_transaction, hin] at hout
    | unlock write read reply h => simp [System.update, Connection.write, hin] at hout
    | execute cmd args h hfree => simp [System.update, executeLocked, hin] at hout
    | getVersion key keys next h => simp [System.update, hin] at hout
    | putVersion key version keys next h => simp [System.update, hin] at hout
  · have hother : s'.conns c = s.conns c := by
      cases h <;> exact Function.update_of_ne hc _ _
    rw [hother, hin] at hout
    exact absurd hout (by decide)

/-- After a `MULTI` block a connection is like a new one exactly if none of its lines has
been rejected up to then. -/
theorem independent_iff {entries : List (Entry ι σ)} {start : System ι σ} (hstart : Starts start)
    (h : Trace entries start s) (hstep : Step env i s e s') (hends : EndsBlock c s s') :
    Independent c s' ↔ ∀ entry ∈ entries, ¬ entry.Rejects c := by
  have herrors : (s'.conns c).txErrors = [] ↔ ∀ entry ∈ entries, ¬ entry.Rejects c := by
    rw [hstep.txErrors, h.txErrors, hstart c]
    refine ⟨fun hall => hall.1.2, fun hall => ⟨⟨rfl, hall⟩, ?_⟩⟩
    rintro ⟨rfl, line, rfl, hrejects⟩
    cases hstep with
    | request _ hstage =>
        have hstay := multiState_of_rejects env (s.conns i) hrejects
        have hout := hends.2
        simp only [System.update, Function.update_self] at hout
        exact absurd (hstay.symm.trans hout) (by decide)
  rw [← herrors]
  obtain ⟨hqueue, hwatching⟩ := hstep.ends hends
  exact ⟨fun hi => hi.1.2.2.2, fun htx => independent_of_fresh ⟨hends.2, hqueue, hwatching, htx⟩⟩

end

section

def oneConnection : System Unit ℤ := ⟨⟨newDB, []⟩, fun _ => newConn⟩

theorem starts_oneConnection : Starts oneConnection := fun _ => rfl

/-- `MULTI`, a line that is rejected and `DISCARD`. -/
theorem not_independent : ¬ ∀ (env : Env ℤ) (i c : Unit) (e : Event) (entries : List (Entry Unit ℤ))
    (start s s' : System Unit ℤ), Starts start → Trace entries start s → Step env i s e s' →
      EndsBlock c s s' → Independent c s' := by
  intro h
  have htrace := (Trace.nil oneConnection)
    |>.snoc (Step.request (plainLine ["multi"]) rfl : Step (.plain 0) () _ _ _)
    |>.snoc (Step.request (plainLine ["nosuch"]) rfl : Step (.plain 0) () _ _ _)
  have hi := h (.plain 0) () () _ _ _ _ _ starts_oneConnection htrace
    (.request (plainLine ["discard"]) rfl) ⟨rfl, rfl⟩
  exact absurd hi.1.2.2.2 (by decide)

/-- `MULTI` and `DISCARD`. -/
theorem independent_discard : ∃ s s' : System Unit ℤ,
    Step (.plain 0) () s (.request (plainLine ["discard"])) s' ∧ EndsBlock () s s' ∧
      Independent () s' := by
  have htrace := (Trace.nil oneConnection)
    |>.snoc (Step.request (plainLine ["multi"]) rfl : Step (.plain 0) () _ _ _)
  let s := oneConnection.update () (exec (.plain 0) newConn (plainLine ["multi"])) ⟨newDB, []⟩
  have hstep : Step (.plain 0) () s (.request (plainLine ["discard"])) _ := .request _ rfl
  refine ⟨_, _, hstep, ⟨rfl, rfl⟩, ?_⟩
  refine (independent_iff starts_oneConnection htrace hstep ⟨rfl, rfl⟩).mpr ?_
  rintro entry hmem ⟨-, line, -, hrejects⟩
  obtain rfl : entry = ⟨.plain 0, (), oneConnection, .request (plainLine ["multi"])⟩ := by
    simpa using hmem
  cases line with
  | nil => exact hrejects
  | cons name args => exact absurd hrejects.1 (by decide)

end

end Traitor.Transaction
