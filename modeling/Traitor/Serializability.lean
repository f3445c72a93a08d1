import Traitor.DeclaredWrites
import Traitor.Lib.TwoPhase
import Traitor.LockManager
import Traitor.UndoLines

namespace Traitor.Database

open Lib.Effects Lib.LockOrder Lib.Strconv Lib.TwoPhase Protocol Lock

variable {σ : Type} [LinearOrder σ] [Inhabited σ]

/-- What a run of an executor finds besides the database. -/
structure Moment where
  now : Int
  choices : Choices

def Env.at (env : Env σ) (moment : Moment) : Env σ :=
  { env with now := moment.now, choices := moment.choices }

/-- A line outside of a transaction, or the lines of an `EXEC` that watches no keys. -/
inductive Request
  | normal (line : CmdLine)
  | multi (cmdLines : List CmdLine)

/-- How far the request of a client is: before its executor, in `ExecMulti` before the undo lines of
the next line or before the line itself, among the undo lines, or through. The undo lines of the
lines that are executed come last line first. -/
inductive Progress
  | normal (line : CmdLine)
  | multi (writeKeys : List Bytes) (cmdLines : List CmdLine) (results : List Reply)
      (undoCmdLines : List (List CmdLine))
  | executing (writeKeys : List Bytes) (cmdLine : CmdLine) (cmdLines : List CmdLine)
      (results : List Reply) (undo : List CmdLine) (undoCmdLines : List (List CmdLine))
  | undo (cmdLines : List CmdLine)
  | done (reply : Reply)

namespace Progress

def answer : Progress → Option Reply
  | .done reply => some reply
  | _ => none

/-- A panic is answered, and nothing is undone then. -/
def executed (result : Option Reply) : Progress := .done (result.getD .unknownErr)

def undoFound (writeKeys : List Bytes) (cmdLine : CmdLine) (cmdLines : List CmdLine) (results : List Reply)
    (undoCmdLines : List (List CmdLine)) : Option (List CmdLine) → Progress
  | none => .done .unknownErr
  | some lines => .executing writeKeys cmdLine cmdLines results lines undoCmdLines

def lineExecuted (writeKeys : List Bytes) (cmdLines : List CmdLine) (results : List Reply)
    (undo : List CmdLine) (undoCmdLines : List (List CmdLine)) : Option Reply → Progress
  | none => .done .unknownErr
  | some result =>
      if isErrorReply result then .undo undoCmdLines.flatten
      else .multi writeKeys cmdLines (results ++ [result]) (undo :: undoCmdLines)

def lineUndone (cmdLines : List CmdLine) : Option Reply → Progress
  | none => .done .unknownErr
  | some _ => .undo cmdLines

end Progress

def Progress.run {σ α : Type} (m : Exec σ α) (next : Option α → Progress) (w : World σ) : Progress × World σ :=
  (next (value m w), final m w)

section

variable (env : Env σ)

def Request.keys : Request → List Bytes × List Bytes
  | .normal line => Transaction.lineKeys env line
  | .multi cmdLines =>
      (cmdLines.flatMap fun line => (Transaction.lineKeys env line).1,
        cmdLines.flatMap fun line => (Transaction.lineKeys env line).2)

/-- A normal command puts new versions before it locks. -/
def Request.enter (r : Request) (w : World σ) : World σ :=
  match r with
  | .normal _ => final (addVersion (r.keys env).1) w
  | .multi _ => w

def Request.start (r : Request) : Progress :=
  match r with
  | .normal line => .normal line
  | .multi cmdLines => .multi (r.keys env).1 cmdLines [] []

def advance : Progress → World σ → Progress × World σ
  | .normal line => Progress.run (execWithLock env line) .executed
  | .multi writeKeys [] results _ => Progress.run (addVersion writeKeys) fun _ => .done (.multiRaw results)
  | .multi writeKeys (line :: lines) results undos =>
      Progress.run (Transaction.getUndoLogs env line) (.undoFound writeKeys line lines results undos)
  | .executing writeKeys line lines results undo undos =>
      Progress.run (execWithLock env line) (.lineExecuted writeKeys lines results undo undos)
  | .undo [] => Progress.run (pure ⟨⟩ : Exec σ PUnit) fun _ => .done Transaction.Connection.execAbort
  | .undo (line :: lines) => Progress.run (execWithLock env line) (.lineUndone lines)
  | .done reply => fun w => (.done reply, w)

def protocol (locks : Locks) :
    Lib.TwoPhase.Protocol (Fin locks.size) Bytes (Option (Entity σ)) (World σ) Request Moment Progress Reply where
  discipline := {
    acquire := fun r => locks.rwLocks (r.keys env).1 (r.keys env).2
    release := fun r => locks.rwUnLocks (r.keys env).1 (r.keys env).2
    ascending := fun _ => locks.rwLocks_ascending _ _
    perm := fun _ => locks.rwUnLocks_perm _ _ }
  slot := locks.index
  look w key := w.db.data.lookup key
  enter := Request.enter env
  start := Request.start env
  advance moment := advance (env.at moment)
  answer := Progress.answer
  writes r := {key | key ∈ (r.keys env).1}
  touches r := {key | key ∈ (r.keys env).1} ∪ {key | key ∈ (r.keys env).2}

/-- The command of a line sets no time to live, and its prepare function lists the keys that it
writes as such, and the others that it reads. -/
def Declared (line : CmdLine) : Prop :=
  ∃ name args c, line = name :: args ∧ cmdTable (toLower (text name)) = some c ∧
    validateArity (command env c).arity line = true ∧
    ∀ moment, Confined {key | key ∈ ((command env c).prepare args).1}
      {key | key ∈ ((command env c).prepare args).2} ((command (env.at moment) c).executor args)

def Request.Declared : Request → Prop
  | .normal line => Database.Declared env line
  | .multi cmdLines => ∀ line ∈ cmdLines, Database.Declared env line

end

section

variable {env : Env σ} {moment : Moment} {line : CmdLine} {c : CommandName} {args : List Slice}

theorem command_prepare (env env' : Env σ) (c : CommandName) :
    (command env c).prepare = (command env' c).prepare := by cases c <;> rfl

omit [LinearOrder σ] [Inhabited σ] in
/-- Without times to live a key that is not written is the same. -/
theorem Local.sameAt {α : Type} {W R : Set Bytes} {Q : α → Prop} {m : Exec σ α} {w : World σ} {key : Bytes}
    (h : Local W R Q m) (hw : w.Timeless) (hkey : key ∉ W) : w.db.SameAt (final m w).db key :=
  ⟨h.frame w hw key hkey, congrArg (fun ttlMap => ttlMap.lookup key) ((h.timeless hw).trans hw.symm)⟩

/-- A command that moves a key does not list it as one that it writes. -/
theorem movedKeys_declared {name : Slice} (harity : validateArity (command env c).arity (name :: args) = true)
    (h : Confined {key | key ∈ ((command env c).prepare args).1}
      {key | key ∈ ((command env c).prepare args).2} ((command env c).executor args)) :
    ∀ key ∈ movedKeys c args, key ∈ ((command env c).prepare args).1 := by
  have hdeclares (w : World σ) (hw : w.Timeless) : ¬ Renames env w c args := fun hrenames =>
    not_declaresWrites hrenames fun key hkey => .inl (h.sameAt hw hkey)
  have hsame {src dest : Slice} {rest : List Slice} (hargs : args = src :: dest :: rest)
      (hrename : ∀ w : World σ, w.db.live env (text src) ≠ none → text src ≠ text dest →
        w.db.live env (text dest) = none → Renames env w c args) : text src = text dest := by
    by_contra hne
    let w : World σ := ⟨⟨Finmap.insert (text src) (.str none) ∅, ∅, fun _ => 0⟩, []⟩
    have hw : w.Timeless := rfl
    refine hdeclares w hw (hrename w ?_ hne ?_)
    · rw [hw.live_eq, Finmap.lookup_insert]
      exact Option.some_ne_none _
    · rw [hw.live_eq, Finmap.lookup_insert_of_ne _ (Ne.symm hne), Finmap.lookup_empty]
  intro key hkey
  cases c with
  | rename =>
      have hlen : (args.length : Int) + 1 = 3 := by simpa [validateArity, command] using harity
      obtain ⟨src, dest, rfl⟩ := List.length_eq_two.mp (show args.length = 2 by omega)
      have heq := hsame rfl fun w hlive hne _ => ⟨hlive, hne⟩
      simp only [movedKeys, prepareRename, List.mem_singleton] at hkey
      simp [command, prepareRename, hkey, heq]
  | renameNx =>
      have hlen : (args.length : Int) + 1 = 3 := by simpa [validateArity, command] using harity
      obtain ⟨src, dest, rfl⟩ := List.length_eq_two.mp (show args.length = 2 by omega)
      have heq := hsame rfl fun w hlive _ hdest => ⟨hlive, hdest⟩
      simp only [movedKeys, prepareRename, List.mem_singleton] at hkey
      simp [command, prepareRename, hkey, heq]
  | _ => simp [movedKeys] at hkey

def lineWrites (env : Env σ) (line : CmdLine) : Set Bytes := {key | key ∈ (Transaction.lineKeys env line).1}

def lineReads (env : Env σ) (line : CmdLine) : Set Bytes := {key | key ∈ (Transaction.lineKeys env line).2}

theorem Declared.execWithLock_confined (h : Declared env line) :
    Confined (lineWrites env line) (lineReads env line) (execWithLock (env.at moment) line) := by
  obtain ⟨name, args, c, rfl, hc, -, hconfined⟩ := h
  simp only [lineWrites, lineReads, Transaction.lineKeys, hc]
  exact Database.execWithLock_confined hc (hconfined moment)

theorem Declared.getUndoLogs_local (h : Declared env line) :
    Local (lineWrites env line) (lineReads env line) (UndoLines (lineWrites env line))
      (Transaction.getUndoLogs (env.at moment) line) := by
  obtain ⟨name, args, c, rfl, hc, harity, hconfined⟩ := h
  have hmoved := movedKeys_declared harity (hconfined ⟨env.now, env.choices⟩)
  simp only [lineWrites, lineReads, Transaction.lineKeys, hc, Transaction.getUndoLogs]
  split
  · exact .pure undoLines_nil
  · next undo hundo =>
      apply undo_local c hundo
      intro key hkey
      rw [command_prepare (env.at moment) env] at hkey
      exact (List.mem_append.mp hkey).elim id (hmoved key)

def Covered (env : Env σ) (r : Request) (line : CmdLine) : Prop :=
  Declared env line ∧ lineWrites env line ⊆ {key | key ∈ (r.keys env).1} ∧
    lineReads env line ⊆ {key | key ∈ (r.keys env).1} ∪ {key | key ∈ (r.keys env).2}

/-- What is left of the request needs no other keys than those it locks. -/
def Fits (env : Env σ) (r : Request) : Progress → Prop
  | .normal line => Covered env r line
  | .multi _ lines _ undos =>
      (∀ line ∈ lines, Covered env r line) ∧ ∀ undo ∈ undos, UndoLines {key | key ∈ (r.keys env).1} undo
  | .executing _ line lines _ undo undos =>
      (∀ l ∈ line :: lines, Covered env r l) ∧
        ∀ u ∈ undo :: undos, UndoLines {key | key ∈ (r.keys env).1} u
  | .undo lines => UndoLines {key | key ∈ (r.keys env).1} lines
  | .done _ => True

variable {r : Request} {q : Progress}

theorem Request.Declared.fits_start (h : r.Declared env) : Fits env r (r.start env) := by
  cases r with
  | normal line => exact ⟨h, subset_rfl, fun key hkey => .inr hkey⟩
  | multi cmdLines =>
      refine ⟨fun line hline => ⟨h line hline, fun key hkey => ?_, fun key hkey => .inr ?_⟩, by simp⟩
      · exact List.mem_flatMap.mpr ⟨line, hline, hkey⟩
      · exact List.mem_flatMap.mpr ⟨line, hline, hkey⟩

omit [LinearOrder σ] [Inhabited σ] in
theorem addVersion_confined {W R : Set Bytes} (keys : List Bytes) :
    Confined W R (addVersion keys : Exec σ PUnit) := by
  have hspec (w : World σ) := (wp_iff _ (fun r w' => r = some PUnit.unit ∧ ∃ versionMap, w' = w.versions versionMap) w).mp
    (wp_addVersion keys w)
  refine ⟨fun w w' hw => ?_, fun w _ key _ => ?_, fun _ _ _ _ => trivial⟩
  · obtain ⟨hvalue, versionMap, hfinal⟩ := hspec w
    obtain ⟨hvalue', versionMap', hfinal'⟩ := hspec w'
    rw [hvalue, hvalue', hfinal, hfinal']
    exact ⟨rfl, hw⟩
  · obtain ⟨-, versionMap, hfinal⟩ := hspec w
    rw [hfinal]
    rfl

theorem Covered.execWithLock_confined (h : Covered env r line) :
    Confined {key | key ∈ (r.keys env).1} {key | key ∈ (r.keys env).2} (execWithLock (env.at moment) line) :=
  h.1.execWithLock_confined.widen h.2.1 h.2.2

omit [LinearOrder σ] [Inhabited σ] in
theorem UndoLines.mono {W W' : Set Bytes} {lines : List CmdLine} (h : UndoLines W lines) (hW : W ⊆ W') :
    UndoLines W' lines := fun line hline =>
  (h line hline).imp fun _ hkey => ⟨hW hkey.1, hkey.2⟩

theorem Covered.getUndoLogs_local (h : Covered env r line) :
    Local {key | key ∈ (r.keys env).1} {key | key ∈ (r.keys env).2}
      (UndoLines {key | key ∈ (r.keys env).1}) (Transaction.getUndoLogs (env.at moment) line) :=
  (h.1.getUndoLogs_local.widen h.2.1 h.2.2).mono fun _ hlines => hlines.mono h.2.1

/-- What is done next is a program that is local to the keys of the request. -/
theorem exists_local (hq : Fits env r q) (hanswer : q.answer = none) (moment : Moment) :
    ∃ (α : Type) (m : Exec σ α) (Q : α → Prop) (next : Option α → Progress),
      Local {key | key ∈ (r.keys env).1} {key | key ∈ (r.keys env).2} Q m ∧
      advance (env.at moment) q = Progress.run m next ∧
      (∀ a, Q a → Fits env r (next (some a))) ∧ Fits env r (next none) := by
  cases q with
  | normal line =>
      exact ⟨_, _, _, Progress.executed, Covered.execWithLock_confined hq, rfl, fun _ _ => trivial, trivial⟩
  | multi writeKeys lines results undos =>
      cases lines with
      | nil =>
          exact ⟨_, _, _, fun _ => .done (.multiRaw results), addVersion_confined writeKeys, rfl,
            fun _ _ => trivial, trivial⟩
      | cons line lines =>
          obtain ⟨hlines, hundos⟩ := hq
          exact ⟨_, _, _, .undoFound writeKeys line lines results undos,
            Covered.getUndoLogs_local (hlines line List.mem_cons_self), rfl,
            fun undo hundo => ⟨hlines, List.forall_mem_cons.mpr ⟨hundo, hundos⟩⟩, trivial⟩
  | executing writeKeys line lines results undo undos =>
      obtain ⟨hlines, hundos⟩ := hq
      refine ⟨_, _, _, .lineExecuted writeKeys lines results undo undos,
        Covered.execWithLock_confined (hlines line List.mem_cons_self), rfl, fun result _ => ?_, trivial⟩
      rw [Progress.lineExecuted]
      split
      · intro l hl
        obtain ⟨u, hu, hl⟩ := List.mem_flatten.mp hl
        exact hundos u (List.mem_cons_of_mem _ hu) l hl
      · exact ⟨fun l hl => hlines l (List.mem_cons_of_mem _ hl), hundos⟩
  | undo lines =>
      cases lines with
      | nil =>
          exact ⟨_, Pure.pure PUnit.unit, fun _ => True, fun _ => .done Transaction.Connection.execAbort,
            .pure trivial, rfl, fun _ _ => trivial, trivial⟩
      | cons line lines =>
          rw [Fits, UndoLines, List.forall_mem_cons] at hq
          obtain ⟨⟨key, hkey, hline⟩, hlines⟩ := hq
          exact ⟨_, _, _, .lineUndone lines, restores_confined hkey hline, rfl, fun _ _ => hlines, trivial⟩
  | done reply => cases hanswer

theorem enter_versions (env : Env σ) (r : Request) (w : World σ) :
    ∃ versionMap, r.enter env w = w.versions versionMap := by
  cases r with
  | normal line =>
      exact ((wp_iff _ (fun r w' => r = some PUnit.unit ∧ ∃ versionMap, w' = w.versions versionMap) w).mp
        (wp_addVersion (Request.keys env (.normal line)).1 w)).2
  | multi cmdLines => exact ⟨w.db.versionMap, rfl⟩

theorem protocol_lawful (env : Env σ) (locks : Locks) :
    Lawful (protocol env locks) World.Timeless (Fits env) where
  locks_writes r key hkey := mem_rwLocks_of_write _ hkey
  locks_touches r key hkey := by
    rcases hkey with hkey | hkey
    · exact ⟨_, mem_rwLocks_of_write _ hkey⟩
    · exact mem_rwLocks_of_read _ hkey
  writes_subset r := Set.subset_union_left
  look_enter r w := by
    obtain ⟨versionMap, henter⟩ := enter_versions env r w
    exact (congrArg (protocol env locks).look henter).trans rfl
  good_enter r w hw := by
    obtain ⟨versionMap, henter⟩ := enter_versions env r w
    rw [show (protocol env locks).enter r w = _ from henter]
    exact hw
  fits_advance moment r q w hq hw hanswer := by
    obtain ⟨α, m, Q, next, hm, hadvance, hsome, hnone⟩ := exists_local hq hanswer moment
    rw [show (protocol env locks).advance moment q w = _ from congrFun hadvance w]
    rw [Progress.run]
    cases hv : value m w with
    | none => exact hnone
    | some a => exact hsome a (hm.gives w hw a hv)
  good_advance moment r q w hq hw hanswer := by
    obtain ⟨α, m, Q, next, hm, hadvance, -, -⟩ := exists_local hq hanswer moment
    rw [show (protocol env locks).advance moment q w = _ from congrFun hadvance w]
    exact hm.timeless hw
  local_advance moment r q w w' hq hw hw' hanswer hagree := by
    obtain ⟨α, m, Q, next, hm, hadvance, -, -⟩ := exists_local hq hanswer moment
    obtain ⟨hvalue, hsame⟩ := hm.relates w w' ⟨hw, hw', hagree⟩
    rw [show (protocol env locks).advance moment q w = _ from congrFun hadvance w,
      show (protocol env locks).advance moment q w' = _ from congrFun hadvance w', Progress.run, Progress.run, hvalue]
    exact ⟨rfl, hsame.2.2⟩
  frame_advance moment r q w hq hw hanswer key hkey := by
    obtain ⟨α, m, Q, next, hm, hadvance, -, -⟩ := exists_local hq hanswer moment
    rw [show (protocol env locks).advance moment q w = _ from congrFun hadvance w]
    exact hm.frame w hw key hkey

end

section

variable {env : Env σ} (locks : Locks) (moment : Moment) {q : Progress} {α : Type}

/-- One step, by the program that it runs. -/
theorem goes_run {m : Exec σ α} {next : Option α → Progress} (w : World σ) (hq : q.answer = none)
    (h : advance (env.at moment) q = Progress.run m next) :
    Goes (protocol env locks) q w (next (value m w)) (final m w) := by
  have hstep : Goes (protocol env locks) q w (advance (env.at moment) q w).1 (advance (env.at moment) q w).2 :=
    .step moment .refl hq
  rw [h] at hstep
  exact hstep

/-- A normal command alone is what `exec` does. -/
theorem exec_goes {line : CmdLine} (hline : Declared env line) (w : World σ) :
    Goes (protocol env locks) (.normal line) (Request.enter env (.normal line) w)
      (.done (exec (env.at moment) line w).1) (exec (env.at moment) line w).2 := by
  obtain ⟨name, args, c, rfl, hc, harity, -⟩ := hline
  have harity' : validateArity (command (env.at moment) c).arity (name :: args) = true := by
    cases c <;> exact harity
  have hkeys : (Request.keys env (.normal (name :: args))).1 = ((command (env.at moment) c).prepare args).1 := by
    simp only [Request.keys, Transaction.lineKeys, hc, command_prepare (env.at moment) env]
  have hlock : execWithLock (env.at moment) (name :: args) = (command (env.at moment) c).executor args := by
    simp only [execWithLock, findCommand, hc, harity', if_true]
    rfl
  have hnormal : execNormalCommand (env.at moment) (name :: args) = (do
      addVersion ((command (env.at moment) c).prepare args).1
      (command (env.at moment) c).executor args) := by
    simp only [execNormalCommand, findCommand, hc, harity', if_true]
    rfl
  have hvalue : value (addVersion ((command (env.at moment) c).prepare args).1) w = some PUnit.unit :=
    ((wp_iff _ (fun r w' => r = some PUnit.unit ∧ ∃ versionMap, w' = w.versions versionMap) w).mp
      (wp_addVersion _ w)).1
  have henter : Request.enter env (.normal (name :: args)) w =
      final (addVersion ((command (env.at moment) c).prepare args).1) w := by
    rw [Request.enter, hkeys]
  have hexec : exec (env.at moment) (name :: args) w =
      ((value ((command (env.at moment) c).executor args) (Request.enter env (.normal (name :: args)) w)).getD
        .unknownErr, final ((command (env.at moment) c).executor args)
          (Request.enter env (.normal (name :: args)) w)) := by
    rw [exec, hnormal, value_bind, final_bind, hvalue, henter]
    rfl
  have hrun : advance (env.at moment) (.normal (name :: args)) =
      Progress.run (execWithLock (env.at moment) (name :: args)) .executed := rfl
  rw [hexec, ← hlock]
  exact goes_run locks moment _ rfl hrun

def linesEnd (writeKeys : List Bytes) (results : List Reply) (undos : List (List CmdLine)) :
    Option (List Reply × List (List CmdLine) × Bool) → Progress
  | none => .done .unknownErr
  | some (_, undos', true) => .undo (undos'.reverse ++ undos).flatten
  | some (results', undos', false) => .multi writeKeys [] (results ++ results') (undos'.reverse ++ undos)

theorem execLines_goes (writeKeys : List Bytes) (lines : List CmdLine) (results : List Reply)
    (undos : List (List CmdLine)) (w : World σ) :
    Goes (protocol env locks) (.multi writeKeys lines results undos) w
      (linesEnd writeKeys results undos (value (Transaction.execLines (env.at moment) lines) w))
      (final (Transaction.execLines (env.at moment) lines) w) := by
  induction lines generalizing results undos w with
  | nil =>
      have hvalue : value (Transaction.execLines (env.at moment) []) w = some ([], [], false) := rfl
      have hfinal : final (Transaction.execLines (env.at moment) []) w = w := rfl
      rw [hvalue, hfinal, linesEnd, List.append_nil, List.reverse_nil, List.nil_append]
      exact .refl
  | cons line lines ih =>
      have hfind : advance (env.at moment) (.multi writeKeys (line :: lines) results undos) =
          Progress.run (Transaction.getUndoLogs (env.at moment) line)
            (.undoFound writeKeys line lines results undos) := rfl
      have hfound := goes_run locks moment w rfl hfind
      rw [Transaction.execLines, value_bind, final_bind]
      cases hundo : value (Transaction.getUndoLogs (env.at moment) line) w with
      | none =>
          rw [hundo] at hfound
          exact hfound
      | some undo =>
          rw [hundo] at hfound
          apply hfound.trans
          generalize final (Transaction.getUndoLogs (env.at moment) line) w = w'
          have hline : advance (env.at moment) (.executing writeKeys line lines results undo undos) =
              Progress.run (execWithLock (env.at moment) line)
                (.lineExecuted writeKeys lines results undo undos) := rfl
          have hexecuted := goes_run locks moment w' rfl hline
          simp only [Option.bind_some]
          rw [value_bind, final_bind]
          cases hresult : value (execWithLock (env.at moment) line) w' with
          | none =>
              rw [hresult] at hexecuted
              exact hexecuted
          | some result =>
              rw [hresult, Progress.lineExecuted] at hexecuted
              generalize final (execWithLock (env.at moment) line) w' = w'' at hexecuted ⊢
              simp only [Option.bind_some]
              by_cases herror : isErrorReply result = true
              · rw [if_pos herror] at hexecuted ⊢
                exact hexecuted
              · rw [if_neg herror] at hexecuted ⊢
                apply hexecuted.trans
                have hrest := ih (results ++ [result]) (undo :: undos) w''
                rw [value_bind, final_bind]
                cases hlines : value (Transaction.execLines (env.at moment) lines) w'' with
                | none =>
                    rw [hlines] at hrest
                    exact hrest
                | some r =>
                    obtain ⟨results', undos', aborted⟩ := r
                    rw [hlines] at hrest
                    cases aborted with
                    | true => simpa [linesEnd, value_pure, final_pure] using hrest
                    | false => simpa [linesEnd, value_pure, final_pure] using hrest

theorem execUndo_goes (lines : List CmdLine) (w : World σ) :
    Goes (protocol env locks) (.undo lines) w
      (.done ((value (Transaction.execUndo (env.at moment) lines) w).elim .unknownErr
        fun _ => Transaction.Connection.execAbort))
      (final (Transaction.execUndo (env.at moment) lines) w) := by
  induction lines generalizing w with
  | nil =>
      have hdone : advance (env.at moment) (.undo []) =
          Progress.run (pure PUnit.unit) fun _ => .done Transaction.Connection.execAbort := rfl
      exact goes_run locks moment w rfl hdone
  | cons line lines ih =>
      have hline : advance (env.at moment) (.undo (line :: lines)) =
          Progress.run (execWithLock (env.at moment) line) (.lineUndone lines) := rfl
      have hundone := goes_run locks moment w rfl hline
      rw [Transaction.execUndo, value_bind, final_bind]
      cases hresult : value (execWithLock (env.at moment) line) w with
      | none =>
          rw [hresult] at hundone
          exact hundone
      | some result =>
          rw [hresult] at hundone
          exact hundone.trans (ih _)

def multiReply : Option (Option (List Reply)) → Reply
  | none => .unknownErr
  | some none => Transaction.Connection.execAbort
  | some (some results) => .multiRaw results

/-- The lines of an `EXEC` alone, at one moment, are what `execQueue` does. -/
theorem execQueue_goes (writeKeys : List Bytes) (lines : List CmdLine) (w : World σ) :
    ∃ versionMap, Goes (protocol env locks) (.multi writeKeys lines [] []) w
      (.done (multiReply (value (Transaction.execQueue (env.at moment) lines) w)))
      ((final (Transaction.execQueue (env.at moment) lines) w).versions versionMap) := by
  have hlines : Goes (protocol env locks) _ w _ _ := execLines_goes locks moment writeKeys lines [] [] w
  rw [Transaction.execQueue, value_bind, final_bind]
  cases hvalue : value (Transaction.execLines (env.at moment) lines) w with
  | none =>
      rw [hvalue] at hlines
      exact ⟨(final (Transaction.execLines (env.at moment) lines) w).db.versionMap, hlines⟩
  | some r =>
      obtain ⟨results, undos, aborted⟩ := r
      rw [hvalue] at hlines
      generalize final (Transaction.execLines (env.at moment) lines) w = w' at hlines ⊢
      cases aborted with
      | true =>
          rw [linesEnd, List.append_nil] at hlines
          have hundo := hlines.trans (execUndo_goes locks moment _ w')
          refine ⟨(final (Transaction.execUndo (env.at moment) undos.reverse.flatten) w').db.versionMap, ?_⟩
          simp only [Option.bind_some, if_true, value_bind, final_bind]
          cases hv : value (Transaction.execUndo (env.at moment) undos.reverse.flatten) w' with
          | none =>
              rw [hv] at hundo
              exact hundo
          | some u =>
              rw [hv] at hundo
              exact hundo
      | false =>
          rw [linesEnd, List.append_nil, List.nil_append] at hlines
          have hdone : advance (env.at moment) (.multi writeKeys [] results undos.reverse) =
              Progress.run (addVersion writeKeys) fun _ => .done (.multiRaw results) := rfl
          obtain ⟨-, versionMap, hfinal⟩ := (wp_iff _ (fun r w'' => r = some PUnit.unit ∧
            ∃ versionMap, w'' = w'.versions versionMap) w').mp (wp_addVersion writeKeys w')
          have hversions := hlines.trans (goes_run locks moment w' rfl hdone)
          rw [hfinal] at hversions
          exact ⟨versionMap, hversions⟩

end

end Traitor.Database
