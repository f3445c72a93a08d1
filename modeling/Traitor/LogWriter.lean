import Traitor.Rewrite

namespace Traitor.Database

open Protocol Traitor.Parser

variable {σ : Type} [LinearOrder σ] [Inhabited σ] (env : Env σ)

def aofQueueSize : Nat := 2 ^ 16

inductive Rewriting
  | started (ctx : RewriteCtx)
  | dumped (ctx : RewriteCtx)

/-- The lines on their way to the file, the file, and the rewrites under way. There is one
database, so that the lines need no index. -/
structure LogHandler where
  aofChan : List (List Bytes)
  aofFile : Bytes
  rewriting : List Rewriting

namespace LogHandler

def new : LogHandler := ⟨[], [], []⟩

inductive Action
  | addAof (line : List Bytes)
  | handleAof
  | startRewrite
  | doRewrite (i : Nat)
  | finishRewrite (i : Nat)

/-- None is a step that has to wait: a full channel or an empty one, or a phase of a rewrite
that is not its next. -/
def step (h : LogHandler) : Action → Option LogHandler
  | .addAof line =>
      if h.aofChan.length < aofQueueSize then some { h with aofChan := h.aofChan ++ [line] } else none
  | .handleAof =>
      match h.aofChan with
      | [] => none
      | line :: chan => some { h with aofChan := chan, aofFile := h.aofFile ++ Codec.encode line }
  | .startRewrite =>
      some { h with rewriting := h.rewriting ++ [.started (Database.startRewrite h.aofFile 0)] }
  | .doRewrite i =>
      match h.rewriting[i]? with
      | some (.started ctx) =>
          some { h with
            rewriting := h.rewriting.set i (.dumped (Database.doRewrite env h.aofFile ctx)) }
      | _ => none
  | .finishRewrite i =>
      match h.rewriting[i]? with
      | some (.dumped ctx) =>
          some { h with
            aofFile := Database.finishRewrite h.aofFile 0 ctx
            rewriting := h.rewriting.eraseIdx i }
      | _ => none

/-- The lines can be read, and a rewrite starts alone, on a file that is not empty, and
dumps what can be dumped. -/
def Careful (h : LogHandler) : Action → Prop
  | .addAof line => LoadsAsWritten line
  | .startRewrite => h.rewriting = [] ∧ h.aofFile ≠ []
  | .doRewrite i => ∀ ctx, h.rewriting[i]? = some (.started ctx) →
      (∀ key, ((loadFile env ctx.fileSize h.aofFile .empty).db.slot key).Dumpable) ∧
        ∀ line ∈ dump env (loadFile env ctx.fileSize h.aofFile .empty).db, Codec.Safe (line.map text)
  | _ => True

inductive Runs : LogHandler → List Action → LogHandler → Prop
  | nil (h : LogHandler) : Runs h [] h
  | cons {h h' h'' : LogHandler} {a : Action} {actions : List Action} (hcareful : Careful env h a)
      (hstep : step env h a = some h') (hrest : Runs h' actions h'') : Runs h (a :: actions) h''

def Action.added : Action → List (List Bytes)
  | .addAof line => [line]
  | _ => []

/-- Lines as they stand in a file that a load reads back. -/
def Loadable (lines : List CmdLine) : Prop :=
  ∀ line ∈ lines, line ≠ [] ∧ Codec.Safe (line.map text)

variable {env}

omit [LinearOrder σ] [Inhabited σ] in
@[simp] theorem loadable_append (lines lines' : List CmdLine) :
    Loadable (lines ++ lines') ↔ Loadable lines ∧ Loadable lines' :=
  List.forall_mem_append

theorem Loadable.loadFile {lines : List CmdLine} (h : Loadable lines) (w : World σ) :
    loadFile env 0 (lines.flatMap multiBulkBytes) w = loadAof env (lines.map asRead) w :=
  loadFile_lines (fun l hl => (h l hl).1) (fun l hl => (h l hl).2) w

omit [LinearOrder σ] [Inhabited σ] in
theorem loadable_commands {line : List Bytes} (h : LoadsAsWritten line) :
    Loadable (commands [line]) :=
  commands_asWritten fun l hl => by rwa [List.mem_singleton.mp hl]

inductive Stage (env : Env σ) (lines : List CmdLine) : List Rewriting → Prop
  | idle : Stage env lines []
  | started (base rest : List CmdLine) (hlines : lines = base ++ rest) (hne : base ≠ []) :
      Stage env lines [.started ⟨[], (base.flatMap multiBulkBytes).length, 0⟩]
  | dumped (base rest : List CmdLine) (hlines : lines = base ++ rest)
      (hdumpable : ∀ key, ((loadAof env (base.map asRead) .empty).db.slot key).Dumpable)
      (hsafe : ∀ line ∈ dump env (loadAof env (base.map asRead) .empty).db, Codec.Safe (line.map text)) :
      Stage env lines [.dumped ⟨(selectCmd 0 :: dump env
        (loadAof env (base.map asRead) .empty).db).flatMap multiBulkBytes,
          (base.flatMap multiBulkBytes).length, 0⟩]

theorem Stage.append {lines : List CmdLine} {rewriting : List Rewriting}
    (h : Stage env lines rewriting) (lines' : List CmdLine) : Stage env (lines ++ lines') rewriting := by
  cases h with
  | idle => exact .idle
  | started base rest hlines hne =>
      exact .started base (rest ++ lines') (by rw [hlines, List.append_assoc]) hne
  | dumped base rest hlines hdumpable hsafe =>
      exact .dumped base (rest ++ lines') (by rw [hlines, List.append_assoc]) hdumpable hsafe

/-- The file says what the lines say that were taken from the channel. -/
structure Keeps (env : Env σ) (h : LogHandler) (added written : List (List Bytes))
    (lines : List CmdLine) : Prop where
  file : h.aofFile = lines.flatMap multiBulkBytes
  loadable : Loadable lines
  added : added = written ++ h.aofChan
  asWritten : ∀ line ∈ h.aofChan, LoadsAsWritten line
  stage : Stage env lines h.rewriting
  slot : (loadAof env (lines.map asRead) .empty).db.slot =
    (loadAof env (commands written) .empty).db.slot

theorem loadAof_singleton {lines : List CmdLine} {written : List (List Bytes)} {line : List Bytes}
    (h : (loadAof env (lines.map asRead) .empty).db.slot =
      (loadAof env (commands written) .empty).db.slot) :
    (loadAof env ((lines ++ commands [line]).map asRead) .empty).db.slot =
      (loadAof env (commands (written ++ [line])) .empty).db.slot := by
  have hcommands : commands (written ++ [line]) = commands written ++ commands [line] := by
    simp [commands]
  rw [List.map_append, asRead_commands, hcommands, loadAof_append, loadAof_append]
  exact loadAof_slots h

theorem loadFile_base {base rest : List CmdLine} (hne : base ≠ []) (h : Loadable base) :
    loadFile env (base.flatMap multiBulkBytes).length ((base ++ rest).flatMap multiBulkBytes) .empty =
      loadAof env (base.map asRead) .empty := by
  have hpos : 0 < (base.flatMap multiBulkBytes).length := by
    obtain ⟨line, lines, rfl⟩ := List.exists_cons_of_ne_nil hne
    simp [multiBulkBytes, bytes]
  rw [← h.loadFile, loadFile, if_pos hpos, List.flatMap_append, List.take_left, loadFile,
    if_neg (by omega)]

omit [LinearOrder σ] [Inhabited σ] in
theorem loadable_dump {db : DB σ} (h : ∀ line ∈ dump env db, Codec.Safe (line.map text)) :
    Loadable (selectCmd 0 :: dump env db) := by
  intro line hline
  rcases List.mem_cons.mp hline with rfl | hline
  · exact ⟨by simp [selectCmd, cmdLine], by decide⟩
  · exact ⟨dump_ne_nil hline, h line hline⟩

omit [LinearOrder σ] [Inhabited σ] in
theorem loadable_select : Loadable [selectCmd 0] := by
  intro line hline
  obtain rfl := List.mem_singleton.mp hline
  exact ⟨by simp [selectCmd, cmdLine], by decide⟩

/-- A dump stands for the lines it was made from, whatever follows them. -/
theorem loadAof_dump {base rest : List CmdLine}
    (h : ∀ key, ((loadAof env (base.map asRead) .empty).db.slot key).Dumpable) :
    (loadAof env ((selectCmd 0 :: dump env (loadAof env (base.map asRead) .empty).db ++ [selectCmd 0] ++
      rest ++ [selectCmd 0]).map asRead) .empty).db.slot =
      (loadAof env ((base ++ rest).map asRead) .empty).db.slot := by
  simp only [List.map_append, List.map_cons, List.map_nil, loadAof_append, loadAof_cons, loadAof_nil,
    exec_selectCmd, List.cons_append]
  refine loadAof_slots (funext fun key => ?_)
  rw [load_dump, (reloaded_eq_iff _).mpr (h key)]

theorem Keeps.handleAof {chan : List (List Bytes)} {line : List Bytes} {content : Bytes}
    {rewriting : List Rewriting} {added written : List (List Bytes)} {lines : List CmdLine}
    (hk : Keeps env ⟨line :: chan, content, rewriting⟩ added written lines) :
    Keeps env ⟨chan, content ++ Codec.encode line, rewriting⟩ added (written ++ [line])
      (lines ++ commands [line]) where
  file := by
    have hfile : content = lines.flatMap multiBulkBytes := hk.file
    rw [List.flatMap_append, ← file_eq, hfile]
    simp [Database.file]
  loadable := (loadable_append _ _).mpr ⟨hk.loadable, loadable_commands (hk.asWritten line List.mem_cons_self)⟩
  added := by
    have hadded : added = written ++ line :: chan := hk.added
    rw [hadded, List.append_assoc, List.singleton_append]
  asWritten := fun l hl => hk.asWritten l (List.mem_cons_of_mem _ hl)
  stage := hk.stage.append _
  slot := loadAof_singleton hk.slot

/-- Only the next phase of the one rewrite is there to be done. -/
theorem Keeps.doRewrite {h h' : LogHandler} {i : Nat} {added written : List (List Bytes)}
    {lines : List CmdLine} (hk : Keeps env h added written lines) (hcareful : Careful env h (.doRewrite i))
    (hstep : step env h (.doRewrite i) = some h') : Keeps env h' added written lines := by
  obtain ⟨chan, content, rewriting⟩ := h
  obtain ⟨hfile, hload, hadded, hread, hstage, hslot⟩ := hk
  cases hstage with
  | idle => simp [LogHandler.step] at hstep
  | dumped base rest hlines hdumpable hsafe => cases i <;> simp [LogHandler.step] at hstep
  | started base rest hlines hne =>
      cases i with
      | succ i => simp [LogHandler.step] at hstep
      | zero =>
          simp only [LogHandler.step, List.getElem?_cons_zero, Option.some.injEq] at hstep
          subst hstep
          obtain ⟨hdumpable, hsafe⟩ := hcareful _ rfl
          subst hlines
          have hfile : content = (base ++ rest).flatMap multiBulkBytes := hfile
          have hbase : loadFile env (base.flatMap multiBulkBytes).length content .empty =
              loadAof env (base.map asRead) .empty := by
            rw [hfile]
            exact loadFile_base hne ((loadable_append _ _).mp hload).1
          dsimp only at hdumpable hsafe
          rw [hbase] at hdumpable hsafe
          have hdump := @Stage.dumped σ _ _ env (base ++ rest) base rest rfl hdumpable hsafe
          have hdo : Database.doRewrite env content ⟨[], (base.flatMap multiBulkBytes).length, 0⟩ =
              ⟨(selectCmd 0 :: dump env (loadAof env (base.map asRead) .empty).db).flatMap
                multiBulkBytes, (base.flatMap multiBulkBytes).length, 0⟩ := by
            rw [Database.doRewrite, hbase]
            simp [databases, List.range_succ]
          rw [← hdo] at hdump
          exact ⟨hfile, hload, hadded, hread, hdump, hslot⟩

theorem Keeps.finishRewrite {h h' : LogHandler} {i : Nat} {added written : List (List Bytes)}
    {lines : List CmdLine} (hk : Keeps env h added written lines)
    (hstep : step env h (.finishRewrite i) = some h') : ∃ lines', Keeps env h' added written lines' := by
  obtain ⟨chan, content, rewriting⟩ := h
  obtain ⟨hfile, hload, hadded, hread, hstage, hslot⟩ := hk
  cases hstage with
  | idle => simp [LogHandler.step] at hstep
  | started base rest hlines hne => cases i <;> simp [LogHandler.step] at hstep
  | dumped base rest hlines hdumpable hsafe =>
      cases i with
      | succ i => simp [LogHandler.step] at hstep
      | zero =>
          simp only [LogHandler.step, List.getElem?_cons_zero, Option.some.injEq] at hstep
          subst hstep
          subst hlines
          have hfile : content = (base ++ rest).flatMap multiBulkBytes := hfile
          have hrest := ((loadable_append _ _).mp hload).2
          refine ⟨selectCmd 0 :: dump env (loadAof env (base.map asRead) .empty).db ++ [selectCmd 0] ++
            rest ++ [selectCmd 0], ?_, ?_, hadded, hread, .idle, (loadAof_dump hdumpable).trans hslot⟩
          · simp [Database.finishRewrite, hfile]
          · simp only [loadable_append]
            exact ⟨⟨⟨loadable_dump hsafe, loadable_select⟩, hrest⟩, loadable_select⟩

theorem Keeps.step {h h' : LogHandler} {a : Action} {added written : List (List Bytes)}
    {lines : List CmdLine} (hk : Keeps env h added written lines) (hcareful : Careful env h a)
    (hstep : step env h a = some h') :
    ∃ written' lines', Keeps env h' (added ++ a.added) written' lines' := by
  cases a with
  | addAof line =>
      simp only [LogHandler.step, Option.ite_none_right_eq_some, Option.some.injEq] at hstep
      obtain ⟨-, rfl⟩ := hstep
      refine ⟨written, lines, hk.file, hk.loadable, ?_, ?_, hk.stage, hk.slot⟩
      · rw [hk.added, List.append_assoc]
        rfl
      · intro l hl
        rcases List.mem_append.mp hl with hl | hl
        · exact hk.asWritten l hl
        · rw [List.mem_singleton.mp hl]
          exact hcareful
  | handleAof =>
      obtain ⟨chan, content, rewriting⟩ := h
      cases chan with
      | nil => simp [LogHandler.step] at hstep
      | cons line chan =>
          simp only [LogHandler.step, Option.some.injEq] at hstep
          subst hstep
          simp only [Action.added, List.append_nil]
          exact ⟨_, _, hk.handleAof⟩
  | startRewrite =>
      simp only [LogHandler.step, Option.some.injEq] at hstep
      subst hstep
      obtain ⟨hidle, hne⟩ := hcareful
      simp only [Action.added, List.append_nil]
      refine ⟨written, lines, hk.file, hk.loadable, hk.added, hk.asWritten, ?_, hk.slot⟩
      have hlines : lines ≠ [] := by
        rintro rfl
        exact hne hk.file
      have hstart := @Stage.started σ _ _ env _ lines [] (List.append_nil _).symm hlines
      simpa [hidle, Database.startRewrite, hk.file] using hstart
  | doRewrite i =>
      simp only [Action.added, List.append_nil]
      exact ⟨_, _, hk.doRewrite hcareful hstep⟩
  | finishRewrite i =>
      simp only [Action.added, List.append_nil]
      exact ⟨_, hk.finishRewrite hstep⟩

theorem Keeps.run {h h' : LogHandler} {actions : List Action} (hrun : Runs env h actions h')
    {added written : List (List Bytes)} {lines : List CmdLine} (hk : Keeps env h added written lines) :
    ∃ written' lines', Keeps env h' (added ++ actions.flatMap Action.added) written' lines' := by
  induction hrun generalizing added written lines with
  | nil h => exact ⟨written, lines, by simpa using hk⟩
  | cons hcareful hstep hrest ih =>
      obtain ⟨written', lines', hk'⟩ := hk.step hcareful hstep
      rw [List.flatMap_cons, ← List.append_assoc]
      exact ih hk'

/-- In every order in which lines are added, written and rewritten, none is lost and none
is there twice: the file loads what the lines load that left the channel. -/
theorem runs_keep {actions : List Action} {h : LogHandler} (hrun : Runs env .new actions h) :
    ∃ written, actions.flatMap Action.added = written ++ h.aofChan ∧
      (loadFile env 0 h.aofFile .empty).db.slot = (loadAof env (commands written) .empty).db.slot ∧
      (loadFile env 0 (h.aofFile ++ file h.aofChan) .empty).db.slot =
        (loadAof env (commands (actions.flatMap Action.added)) .empty).db.slot := by
  have hnew : Keeps env .new [] [] [] :=
    ⟨rfl, by simp [Loadable], rfl, by simp [new], .idle, rfl⟩
  obtain ⟨written, lines, hk⟩ := hnew.run hrun
  rw [List.nil_append] at hk
  refine ⟨written, hk.added, ?_, ?_⟩
  · rw [hk.file, hk.loadable.loadFile, hk.slot]
  · have hchan : Loadable (commands h.aofChan) := commands_asWritten hk.asWritten
    have hcommands : commands (written ++ h.aofChan) = commands written ++ commands h.aofChan := by
      simp [commands]
    rw [hk.file, file_eq, ← List.flatMap_append,
      Loadable.loadFile ((loadable_append _ _).mpr ⟨hk.loadable, hchan⟩), List.map_append, asRead_commands,
      loadAof_append, hk.added, hcommands, loadAof_append]
    exact loadAof_slots hk.slot

def rewriteActions : List Action :=
  [.addAof appendLine, .handleAof, .startRewrite, .addAof appendLine, .doRewrite 0, .handleAof,
    .finishRewrite 0]

theorem runs_rewriteActions : ∃ h, Runs (Env.plain 0) .new rewriteActions h := by
  have hread : LoadsAsWritten appendLine := appendLine_asWritten _ List.mem_cons_self
  have hfile : Codec.encode appendLine = file [appendLine] := by simp [file]
  have hload (w : World ℤ) : loadFile (.plain 0) (Codec.encode appendLine).length
      (Codec.encode appendLine) w = loadFile (.plain 0) 0 (file [appendLine]) w := by
    rw [loadFile, if_pos (by decide), List.take_length, loadFile, if_neg (by decide), hfile]
  refine ⟨_, .cons hread rfl (.cons trivial rfl (.cons ⟨rfl, by decide⟩ rfl (.cons hread rfl
    (.cons ?_ rfl (.cons trivial rfl (.cons trivial rfl (.nil _)))))))⟩
  rintro ctx ⟨⟩
  simp only [new, List.nil_append, Database.startRewrite, hload]
  refine ⟨fun key => ?_, appendLine_dump⟩
  rw [appendLine_slot]
  split
  · exact ⟨by simp, by simp⟩
  · exact ⟨by simp [Slot.empty], rfl⟩

theorem runs_keep_rewriteActions : ∃ h, Runs (Env.plain 0) .new rewriteActions h ∧
    (loadFile (Env.plain 0) 0 (h.aofFile ++ file h.aofChan) .empty).db.slot =
      (loadAof (.plain 0) (commands [appendLine, appendLine]) .empty).db.slot := by
  obtain ⟨h, hrun⟩ := runs_rewriteActions
  obtain ⟨written, -, -, hslot⟩ := runs_keep hrun
  exact ⟨h, hrun, hslot⟩

end LogHandler

end Traitor.Database
