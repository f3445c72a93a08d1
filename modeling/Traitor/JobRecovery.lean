import Traitor.JobClient
import Traitor.LostCollections
import Traitor.TornLog

namespace Traitor.LocalDb

open Database (Slice text Env World Entity CommandName command cmdTable cmdLine3 validateArity Exec Quiet
  JournalsAt Verbatim LoadsAsWritten commands file loadFile loadAof)
open Codec Lib.Effects

variable {σ : Type} {env : Env σ} {lib : Library} {w w' : World σ} {db db' : Db}

/-- A value is seen in one way only. -/
theorem Shown.unique {e : Option (Entity σ)} {item item' : Option Item} (h : Shown e item)
    (h' : Shown e item') : item = item' := by
  cases h with
  | absent => cases h'; rfl
  | hash d fields hd =>
      cases h' with
      | hash _ fields' hd' =>
          have hfields : fields = fields' := by
            funext f
            have hf := (hd f).symm.trans (hd' f)
            revert hf
            cases fields f <;> cases fields' f <;> simp
          rw [hfields]
      | other _ hhash hset => cases hhash
  | set s =>
      cases h' with
      | set => rfl
      | other _ hhash hset => cases hset
  | other e hhash hset =>
      cases h' with
      | hash => cases hhash
      | set => cases hset
      | other => rfl

theorem Shows.unique (h : Shows w db) (h' : Shows w db') : db = db' :=
  funext fun key => (h key).2.unique (h' key).2

/-- Nothing expires, so a quiet run changes nothing. -/
theorem Shows.of_quiet (h : Shows w db) (hquiet : Quiet env w w') : Shows w' db := by
  intro key
  have hsame : w'.db.slot key = w.db.slot key := by
    rcases hquiet.2.2 key with ⟨hdata, httl⟩ | ⟨hexpired, -⟩
    · rw [Database.DB.slot, hdata, httl]
      rfl
    · rw [Database.DB.isExpired_slot, Database.Slot.isExpired, (h key).1] at hexpired
      cases hexpired
  rw [hsame]
  exact h key

def Db.Full (db : Db) : Prop := ∀ key, db key ≠ some (.set ∅)

theorem Db.Full.put {item : Item} (h : db.Full) (hitem : item ≠ .set ∅) (key : Bytes) :
    Db.Full (Function.update db key (some item)) := by
  intro k
  by_cases hk : k = key
  · subst hk
    rw [Function.update_self]
    exact fun heq => hitem (Option.some.inj heq)
  · rw [Function.update_of_ne hk]
    exact h k

theorem Db.Full.remove (h : db.Full) (key : Bytes) : Db.Full (Function.update db key none) := by
  intro k
  by_cases hk : k = key
  · subst hk
    rw [Function.update_self]
    exact nofun
  · rw [Function.update_of_ne hk]
    exact h k

theorem Db.Full.apply (h : db.Full) (r : Request) : (r.apply lib db).2.Full := by
  cases r with
  | hmset args =>
      rcases args with _ | ⟨key, args⟩
      · exact h
      · rw [Request.apply, Db.hmset]
        split_ifs
        · exact h
        · exact h
        · rcases db key with _ | _ | _ | _
          · exact h.put (by simp) key
          · exact h.put (by simp) key
          · exact h
          · exact h
  | hmget key fields => exact h
  | hget key field => exact h
  | sadd key member =>
      rw [Request.apply, Db.sadd]
      rcases db key with _ | fields | s | _
      · exact h.put (by simp) key
      · exact h
      · exact h.put (by simp) key
      · exact h
  | srem key member =>
      rw [Request.apply, Db.srem]
      rcases db key with _ | fields | s | _
      · exact h
      · exact h
      · dsimp only
        split_ifs with hempty
        · exact h.remove key
        · exact h.put (by simpa using hempty) key
      · exact h
  | smembers key => exact h
  | del key => exact h.remove key

namespace Request

def logName : Request → Option String
  | .hmset _ => some "hmset"
  | .sadd _ _ => some "sadd"
  | .srem _ _ => some "srem"
  | .del _ => some "del"
  | _ => none

def logLine (name : String) (r : Request) : List Bytes := bytes name :: r.args

end Request

def Logs (w w' : World σ) (db : Db) (r : Request) : Prop :=
  (w'.aof = w.aof ∧ Shows w' db) ∨
    ∃ name, r.logName = some name ∧ w'.aof = w.aof ++ commands [r.logLine name]

theorem Logs.of_journalsAt {m : Exec σ Protocol.Reply} {r : Request} {name : String} (h : Shows w db)
    (hname : r.logName = some name) (hm : JournalsAt env (Verbatim name (r.args.map some)) m w) :
    Logs w (final m w) db r := by
  rcases (wp_iff m _ w).mp hm with hquiet | ⟨reply, lines, -, -, haof, rfl⟩
  · exact .inl ⟨hquiet.1, h.of_quiet hquiet⟩
  · exact .inr ⟨name, hname, haof⟩

theorem Logs.of_moves {m : Exec σ Protocol.Reply} {r : Request} (h : Shows w db)
    (hm : Moves (Quiet env) m) : Logs w (final m w) db r := by
  have hquiet := hm.final w
  exact .inl ⟨hquiet.1, h.of_quiet hquiet⟩

/-- No set without members is removed unkept. -/
theorem srem_journalsAt (h : Shows w db) (hfull : db.Full) (key : Slice) (members : List Slice) :
    JournalsAt env (Verbatim "srem" (key :: members)) (Database.execSRem env (key :: members)) w := by
  apply Database.journalsAt_getAs .set (fun _ _ => Database.asSet_eq) (fun _ => rfl) (fun _ => rfl) rfl
  intro s hlive
  rw [h.live] at hlive
  apply Database.shrunk_journalsAt hlive
  intro hlogs
  have hsame := Database.removeMembers_zero (le_antisymm (not_lt.mp hlogs)
    (Database.removeMembers_nonneg s (members.map text)))
  refine ⟨by rw [hsame], fun hcard => ?_⟩
  rw [hsame, Finset.card_eq_zero] at hcard
  have hshown := (h (text key)).2
  rw [hlive, hcard] at hshown
  exact hfull (text key) (hshown.unique (.set ∅))

theorem logName_spec {r : Request} {name : String} (h : r.logName = some name) :
    cmdTable (Database.toLower (text (some (bytes name)))) = some r.command ∧
      Database.toLower (bytes name) ∉ Database.controls ∧ (bytes name).length + 2 < 2 ^ 63 ∧
      ¬ Dollar (bytes name) := by
  have hnames : ∀ p ∈ [("hmset", CommandName.hMSet), ("sadd", .sAdd), ("srem", .sRem), ("del", .del)],
      cmdTable (Database.toLower (text (some (bytes p.1)))) = some p.2 ∧
        Database.toLower (bytes p.1) ∉ Database.controls ∧ (bytes p.1).length + 2 < 2 ^ 63 ∧
        ¬ Dollar (bytes p.1) := by
    decide +kernel
  apply hnames (name, r.command)
  cases r <;> cases h <;> simp [Request.command]

theorem logLine_asWritten {r : Request} {name : String} (h : r.logName = some name) (hsafe : Safe r.line) :
    LoadsAsWritten (r.logLine name) := by
  obtain ⟨-, hcontrol, hlen, hdollar⟩ := logName_spec h
  refine ⟨bytes name, r.args, rfl, hcontrol, by simpa [Request.line, Request.logLine] using hsafe.1, ?_⟩
  exact List.forall_mem_cons.mpr ⟨⟨hdollar, hlen⟩, fun arg harg => hsafe.2 arg (List.mem_cons_of_mem _ harg)⟩

section

variable [LinearOrder σ] [Inhabited σ]

/-- A request that changes anything has its line kept. -/
theorem exec_logs (h : Shows w db) (hfull : db.Full) (r : Request) :
    Logs w (Database.exec env (r.line.map some) w).2 db r := by
  by_cases harity : validateArity (command env r.command).arity (r.line.map some) = true
  · obtain ⟨versionMap, hw⟩ := Database.exec_command (w := w) r.cmdTable_name harity
    have hv := h.versions versionMap
    rw [Request.line, List.map_cons, hw]
    cases r with
    | hmset args => exact Logs.of_journalsAt hv rfl (Database.execHMSet_journals env _ _)
    | hmget key fields => exact Logs.of_moves hv (Database.read_moves env _ rfl)
    | hget key field => exact Logs.of_moves hv (Database.read_moves env _ rfl)
    | sadd key member => exact Logs.of_journalsAt hv rfl (Database.execSAdd_journals env _ _)
    | srem key member => exact Logs.of_journalsAt hv rfl (srem_journalsAt hv hfull _ _)
    | smembers key => exact Logs.of_moves hv (Database.read_moves env _ rfl)
    | del key => exact Logs.of_journalsAt hv rfl (Database.execDel_journals env _ _)
  · rw [Request.line, List.map_cons] at harity ⊢
    rw [Database.exec_badArity r.cmdTable_name (Bool.not_eq_true _ ▸ harity)]
    exact .inl ⟨rfl, h⟩

/-- The kept line does to a database what its request does. -/
theorem logLine_shows {n : Nat} {v : World σ} (h : Shows v db) (htame : db.Tame n) (hn : n < 2 ^ 32)
    (hlib : lib.members = env.choices.order) {r : Request} (hasks : r.Asks) (hsafe : Safe r.line)
    {name : String} (hname : r.logName = some name) :
    Shows (Database.exec env ((r.logLine name).map some) v).2 (r.apply lib db).2 := by
  obtain ⟨hc, -⟩ := logName_spec hname
  by_cases harity : validateArity (command env r.command).arity (r.line.map some) = true
  · have hline : validateArity (command env r.command).arity ((r.logLine name).map some) = true := by
      simpa [validateArity, Request.line, Request.logLine] using harity
    exact (exec_answers hc hline fun versionMap =>
      executor_answers (h.versions versionMap) htame hn hlib hsafe harity).2.2
  · -- neither line has a name that takes so few arguments
    have hanswers := (request_answers h htame hn hlib hasks hsafe).2.2
    have hbad : validateArity (command env r.command).arity (r.line.map some) = false :=
      Bool.not_eq_true _ ▸ harity
    have hline : validateArity (command env r.command).arity ((r.logLine name).map some) = false := by
      simpa [validateArity, Request.line, Request.logLine] using hbad
    rw [Request.line, List.map_cons, Database.exec_badArity r.cmdTable_name hbad] at hanswers
    rw [Request.logLine, List.map_cons, Database.exec_badArity hc hline]
    exact hanswers

inductive Event
  | serve (t : Int) (r : Request)
  | restart (t : Int)

def logFile (w : World σ) : Bytes := file (w.aof.map fun line => line.map text)

/-- The lines that a load hands on are not added to the log. -/
def restart (env : Env σ) (t : Int) (w : World σ) : World σ :=
  { loadFile (env.atTime t) 0 (logFile w) .empty with aof := w.aof }

def step (env : Env σ) (w : World σ) : Event → World σ
  | .serve t r => (Database.exec (env.atTime t) (r.line.map some) w).2
  | .restart t => restart env t w

def run (env : Env σ) (events : List Event) : World σ := events.foldl (step env) .empty

def requests (events : List Event) : List Request :=
  events.filterMap fun
    | .serve _ r => some r
    | .restart _ => none

def stored (lib : Library) (rs : List Request) : Db := (applyAll lib rs fun _ => none).2

theorem applyAll_concat (rs : List Request) (r : Request) (db : Db) :
    (applyAll lib (rs ++ [r]) db).2 = (r.apply lib (applyAll lib rs db).2).2 := by
  induction rs generalizing db with
  | nil => rfl
  | cons r' rs ih => exact ih _

theorem stored_tame {rs : List Request} (hsafe : ∀ r ∈ rs, Safe r.line) :
    (stored lib rs).Tame rs.length := by
  induction rs using List.reverseRecOn with
  | nil => exact tame_empty
  | append_singleton rs r ih =>
      rw [stored, applyAll_concat, List.length_append]
      exact (ih fun r' hr' => hsafe r' (List.mem_append_left _ hr')).apply (hsafe r (by simp))

theorem stored_full (rs : List Request) : (stored lib rs).Full := by
  induction rs using List.reverseRecOn with
  | nil => exact fun key => nofun
  | append_singleton rs r ih =>
      rw [stored, applyAll_concat]
      exact ih.apply r

end

section

variable [LinearOrder σ] [Inhabited σ]

theorem run_concat (events : List Event) (e : Event) :
    run env (events ++ [e]) = step env (run env events) e := List.foldl_append

theorem requests_concat (events : List Event) (e : Event) :
    requests (events ++ [e]) = requests events ++ requests [e] := List.filterMap_append

/-- Every beginning of the log brings a load to what was stored after some requests, among
them all those whose lines it has. -/
def Loads (env : Env σ) (lib : Library) (events : List Event) : Prop :=
  ∀ t cut, cut <+: (run env events).aof → ∃ n ≤ (requests events).length,
    Shows (loadAof (env.atTime t) cut .empty) (stored lib ((requests events).take n)) ∧
      ∀ before, before <+: events → (run env before).aof <+: cut → (requests before).length ≤ n

structure Sound (env : Env σ) (lib : Library) (events : List Event) : Prop where
  asWritten : ∃ lines, (run env events).aof = commands lines ∧ ∀ line ∈ lines, LoadsAsWritten line
  grows : ∀ before, before <+: events → (run env before).aof <+: (run env events).aof
  shows : Shows (run env events) (stored lib (requests events))
  loads : Loads env lib events

theorem Loads.whole {events : List Event} (h : Loads env lib events) (t : Int) :
    Shows (loadAof (env.atTime t) (run env events).aof .empty) (stored lib (requests events)) := by
  obtain ⟨n, hn, hshows, hall⟩ := h t _ (List.prefix_refl _)
  have hle := hall events (List.prefix_refl _) (List.prefix_refl _)
  rwa [List.take_of_length_le hle] at hshows

omit [LinearOrder σ] [Inhabited σ] in
theorem logFile_commands {lines : List (List Bytes)} (haof : w.aof = commands lines) :
    logFile w = file lines := by
  rw [logFile, haof, commands, List.map_map]
  simp [Function.comp_def, text]

theorem Sound.empty : Sound env lib [] where
  asWritten := ⟨[], rfl, nofun⟩
  grows before hbefore := by
    obtain rfl := List.prefix_nil.mp hbefore
    exact List.prefix_refl _
  shows := shows_empty
  loads t cut hcut := by
    obtain rfl := List.prefix_nil.mp hcut
    refine ⟨0, Nat.le_refl 0, shows_empty, fun before hbefore _ => ?_⟩
    obtain rfl := List.prefix_nil.mp hbefore
    exact Nat.le_refl 0

omit [LinearOrder σ] [Inhabited σ] in
theorem requests_beginning {before events : List Event} (h : before <+: events) :
    requests before <+: requests events := h.filterMap _

/-- A step that adds at most a line is loaded as long as the whole log is. -/
theorem Loads.step {events : List Event} {e : Event} (h : Loads env lib events)
    (hwhole : ∀ t, Shows (loadAof (env.atTime t) (run env (events ++ [e])).aof .empty)
      (stored lib (requests (events ++ [e]))))
    (hcuts : ∀ cut, cut <+: (run env (events ++ [e])).aof →
      cut = (run env (events ++ [e])).aof ∨ cut <+: (run env events).aof) :
    Loads env lib (events ++ [e]) := by
  intro t cut hcut
  by_cases hall : cut = (run env (events ++ [e])).aof
  · refine ⟨_, Nat.le_refl _, ?_, fun before hbefore _ => (requests_beginning hbefore).length_le⟩
    rw [hall, List.take_length]
    exact hwhole t
  · obtain ⟨n, hn, hshows, hkept⟩ := h t cut ((hcuts cut hcut).resolve_left hall)
    obtain ⟨more, hmore⟩ := requests_beginning (List.prefix_append events [e])
    rw [← hmore]
    refine ⟨n, Nat.le_trans hn (by simp), ?_, fun before hbefore hprefix => ?_⟩
    · rwa [List.take_append_of_le_length hn]
    · rcases List.prefix_concat_iff.mp hbefore with rfl | hbefore
      · exact absurd (hcut.eq_of_length_le hprefix.length_le) hall
      · exact hkept before hbefore hprefix

theorem Sound.step {events : List Event} {e : Event} (h : Sound env lib events)
    (hshows : Shows (run env (events ++ [e])) (stored lib (requests (events ++ [e]))))
    (hwhole : ∀ t, Shows (loadAof (env.atTime t) (run env (events ++ [e])).aof .empty)
      (stored lib (requests (events ++ [e]))))
    (hlines : (run env (events ++ [e])).aof = (run env events).aof ∨ ∃ line, LoadsAsWritten line ∧
      (run env (events ++ [e])).aof = (run env events).aof ++ commands [line]) :
    Sound env lib (events ++ [e]) := by
  have hgrows : (run env events).aof <+: (run env (events ++ [e])).aof := by
    rcases hlines with haof | ⟨line, -, haof⟩
    · exact haof ▸ List.prefix_refl _
    · exact haof ▸ List.prefix_append _ _
  refine ⟨?_, fun before hbefore => ?_, hshows, h.loads.step hwhole fun cut hcut => ?_⟩
  · obtain ⟨lines, hold, hread⟩ := h.asWritten
    rcases hlines with haof | ⟨line, hline, haof⟩
    · exact ⟨lines, haof.trans hold, hread⟩
    · refine ⟨lines ++ [line], by rw [haof, hold, commands, commands, commands, List.map_append], ?_⟩
      exact List.forall_mem_append.mpr ⟨hread, by simpa using hline⟩
  · rcases List.prefix_concat_iff.mp hbefore with rfl | hbefore
    · exact List.prefix_refl _
    · exact (h.grows before hbefore).trans hgrows
  · rcases hlines with haof | ⟨line, -, haof⟩
    · exact .inr (haof ▸ hcut)
    · rw [haof] at hcut ⊢
      exact List.prefix_concat_iff.mp hcut

theorem Sound.restart {events : List Event} (h : Sound env lib events) (t : Int) :
    Sound env lib (events ++ [.restart t]) := by
  have haof : (run env (events ++ [.restart t])).aof = (run env events).aof := by
    rw [run_concat]
    rfl
  have hrequests : requests (events ++ [.restart t]) = requests events := by
    rw [requests_concat]
    exact List.append_nil _
  refine h.step ?_ (fun u => ?_) (.inl haof)
  · obtain ⟨lines, hlines, hread⟩ := h.asWritten
    have hload := h.loads.whole t
    rw [hlines, ← Database.loadFile_file hread, ← logFile_commands hlines] at hload
    rw [hrequests, run_concat]
    exact hload.aof _
  · rw [hrequests, haof]
    exact h.loads.whole u

theorem Sound.serve {events : List Event} (h : Sound env lib events) (t : Int) {r : Request}
    (hsafes : ∀ r ∈ requests events, Safe r.line) (hlen : (requests events).length < 2 ^ 32)
    (hlib : lib.members = env.choices.order) (hasks : r.Asks) (hsafe : Safe r.line) :
    Sound env lib (events ++ [.serve t r]) := by
  have htame := @stored_tame lib _ hsafes
  have hrun : run env (events ++ [.serve t r]) =
      (Database.exec (env.atTime t) (r.line.map some) (run env events)).2 := run_concat events _
  have hstored : stored lib (requests (events ++ [.serve t r])) =
      (r.apply lib (stored lib (requests events))).2 := by
    rw [requests_concat]
    exact applyAll_concat (requests events) r _
  have hshows : Shows (run env (events ++ [.serve t r])) (r.apply lib (stored lib (requests events))).2 := by
    rw [hrun]
    have hat : lib.members = (env.atTime t).choices.order := hlib
    exact (request_answers h.shows htame hlen hat hasks hsafe).2.2
  have hlogs : Logs (run env events) (run env (events ++ [.serve t r])) (stored lib (requests events)) r := by
    rw [hrun]
    exact exec_logs h.shows (stored_full (requests events)) r
  refine h.step (hstored ▸ hshows) (fun u => ?_) ?_
  · rw [hstored]
    rcases hlogs with ⟨haof, hsame⟩ | ⟨name, hname, haof⟩
    · rw [haof, hshows.unique hsame]
      exact h.loads.whole u
    · rw [haof, Database.loadAof_append]
      have hat : lib.members = (env.atTime u).choices.order := hlib
      exact logLine_shows (h.loads.whole u) htame hlen hat hasks hsafe hname
  · rcases hlogs with ⟨haof, -⟩ | ⟨name, hname, haof⟩
    · exact .inl haof
    · exact .inr ⟨_, logLine_asWritten hname hsafe, haof⟩

theorem sound_run {events : List Event} (hasks : ∀ r ∈ requests events, r.Asks)
    (hsafe : ∀ r ∈ requests events, Safe r.line) (hlib : lib.members = env.choices.order)
    (hlen : (requests events).length ≤ 2 ^ 32) : Sound env lib events := by
  induction events using List.reverseRecOn with
  | nil => exact .empty
  | append_singleton events e ih =>
      simp only [requests_concat, List.forall_mem_append, List.length_append] at hasks hsafe hlen
      have hbefore := ih hasks.1 hsafe.1 (by omega)
      cases e with
      | restart t => exact hbefore.restart t
      | serve t r =>
          exact hbefore.serve t hsafe.1 (Nat.lt_of_succ_le hlen) hlib
            (hasks.2 r (List.mem_singleton.mpr rfl)) (hsafe.2 r (List.mem_singleton.mpr rfl))

/-- Over any restarts the server holds what its client stored, and a crash that leaves any number of
bytes of the log is loaded to what was stored at some time, not before the log was that long. -/
theorem jobs_recovered {events : List Event} (hasks : ∀ r ∈ requests events, r.Asks)
    (hsafe : ∀ r ∈ requests events, Safe r.line) (hlib : lib.members = env.choices.order)
    (hlen : (requests events).length ≤ 2 ^ 32) (t : Int) (left : Nat) :
    Shows (run env events) (stored lib (requests events)) ∧
      ∃ n ≤ (requests events).length,
        Shows (loadFile (env.atTime t) 0 ((logFile (run env events)).take left) .empty)
          (stored lib ((requests events).take n)) ∧
        ∀ before, before <+: events → (logFile (run env before)).length ≤ left →
          (requests before).length ≤ n := by
  have hsound := sound_run hasks hsafe hlib hlen
  refine ⟨hsound.shows, ?_⟩
  obtain ⟨lines, hlines, hread⟩ := hsound.asWritten
  rw [logFile_commands hlines, Database.loadFile_take _ hread]
  have hcut : commands (whole left lines) <+: (run env events).aof := by
    rw [hlines]
    exact (whole_beginning left lines).map _
  obtain ⟨n, hn, hshows, hkept⟩ := hsound.loads t _ hcut
  refine ⟨n, hn, hshows, fun before hbefore hlength => hkept before hbefore ?_⟩
  have hgrows := hsound.grows before hbefore
  rw [hlines] at hgrows
  obtain ⟨kept, hprefix, hkeptLines⟩ := List.prefix_map_iff.mp hgrows
  rw [hkeptLines]
  refine (prefix_whole hprefix ?_).map _
  rwa [logFile_commands hkeptLines] at hlength

end

def jobEvents : List Event :=
  [.serve 0 (.sadd jobKeysSet (bytes "1")), .restart 5, .serve 6 (.srem jobKeysSet (bytes "1"))]

/-- The log has lost the last two bytes. -/
theorem jobs_recovered_jobEvents :
    Shows (run (.plain 0) jobEvents) (stored (.alongside (.plain 0)) (requests jobEvents)) ∧
      ∃ n ≤ (requests jobEvents).length,
        Shows (loadFile ((Env.plain 0).atTime 9) 0 ((logFile (run (.plain 0) jobEvents)).take 78) .empty)
          (stored (.alongside (.plain 0)) ((requests jobEvents).take n)) ∧
        ∀ before, before <+: jobEvents → (logFile (run (.plain 0) before)).length ≤ 78 →
          (requests before).length ≤ n := by
  have hasks : ∀ r ∈ requests jobEvents, r.Asks := by
    intro r hr
    rcases List.mem_pair.mp hr with rfl | rfl <;> exact trivial
  exact jobs_recovered hasks (by decide +kernel) rfl (by decide) 9 78

end Traitor.LocalDb
