import Mathlib.Data.List.Permutation
import Traitor.Lib.LoneClient
import Traitor.SharedReplies

namespace Traitor.Database

open Lib.Effects Lib.LockOrder Lib.Strconv Lib.TwoPhase Protocol Lock
open Lib.Cells (Memory)

variable {σ : Type} {env : Env σ} {m m' : Memory Bytes UInt8}

structure SharedLine.Shows (m : Memory Bytes UInt8) (u : SharedLine) (line : CmdLine) : Prop where
  same : u.line = line
  held : ∀ slice, u.held = some slice →
    (∃ key, line = [some (bytes "SET"), key, some (m.read slice)]) ∧ m.Taken slice

namespace SharedLine

variable {u : SharedLine} {line : CmdLine}

theorem Shows.later (h : u.Shows m line) (hm : m.Extends m') : u.Shows m' line := by
  refine ⟨h.same, fun slice hslice => ?_⟩
  obtain ⟨hline, htaken⟩ := h.held slice hslice
  rw [hm.read htaken]
  exact ⟨hline, hm.taken htaken⟩

theorem Shows.read (h : u.Shows m line) : u.read m = line := by
  obtain ⟨rfl, hheld⟩ := h
  rw [SharedLine.read]
  cases hslice : u.held with
  | none => rfl
  | some slice =>
      obtain ⟨⟨key, hline⟩, -⟩ := hheld slice hslice
      rw [hline]
      rfl

theorem share_shows {s : Shared σ} (hs : s.Consistent) (line : CmdLine) : (s.share env line).Shows s.memory line := by
  rw [Shared.share.eq_def]
  split
  · next name key b =>
      split
      · next h =>
          obtain ⟨hname, hstring⟩ := h
          obtain ⟨hread, htaken⟩ := hs.string hstring
          refine ⟨rfl, fun slice hslice => ?_⟩
          cases hslice
          refine ⟨⟨key, ?_⟩, htaken⟩
          rw [hread]
          cases name with
          | none => cases hname
          | some name => rw [show name = bytes "SET" from hname]
      · exact ⟨rfl, fun slice hslice => by cases hslice⟩
  · exact ⟨rfl, fun slice hslice => by cases hslice⟩

end SharedLine

inductive Answer.Shows (m : Memory Bytes UInt8) : Answer → Reply → Prop
  | one {result : Result} {reply : Reply} (h : result.Shows m reply) : Shows m (.one result) reply
  | multiRaw {results : List Result} {replies : List Reply} (h : List.Forall₂ (Result.Shows m) results replies) :
      Shows m (.multiRaw results) (.multiRaw replies)

abbrev ShowsLines (m : Memory Bytes UInt8) : List (List SharedLine) → List (List CmdLine) → Prop :=
  List.Forall₂ (List.Forall₂ (SharedLine.Shows m))

/-- The request is as far, and its slices are the bytes of the other one. -/
inductive SharedProgress.Shows (m : Memory Bytes UInt8) : SharedProgress → Progress → Prop
  | normal (line : CmdLine) : Shows m (.normal line) (.normal line)
  | multi {results : List Result} {replies : List Reply} {undos : List (List SharedLine)}
      {undoCmdLines : List (List CmdLine)} (writeKeys : List Bytes) (cmdLines : List CmdLine)
      (hresults : List.Forall₂ (Result.Shows m) results replies) (hundos : ShowsLines m undos undoCmdLines) :
      Shows m (.multi writeKeys cmdLines results undos) (.multi writeKeys cmdLines replies undoCmdLines)
  | executing {results : List Result} {replies : List Reply} {lines : List SharedLine} {undo : List CmdLine}
      {undos : List (List SharedLine)} {undoCmdLines : List (List CmdLine)} (writeKeys : List Bytes)
      (cmdLine : CmdLine) (cmdLines : List CmdLine) (hresults : List.Forall₂ (Result.Shows m) results replies)
      (hundo : List.Forall₂ (SharedLine.Shows m) lines undo) (hundos : ShowsLines m undos undoCmdLines) :
      Shows m (.executing writeKeys cmdLine cmdLines results lines undos)
        (.executing writeKeys cmdLine cmdLines replies undo undoCmdLines)
  | undo {lines : List SharedLine} {cmdLines : List CmdLine} (h : List.Forall₂ (SharedLine.Shows m) lines cmdLines) :
      Shows m (.undo lines) (.undo cmdLines)
  | done {answer : Answer} {reply : Reply} (h : answer.Shows m reply) : Shows m (.done answer) (.done reply)

section

variable {results : List Result} {replies : List Reply} {undos : List (List SharedLine)}
  {undoCmdLines : List (List CmdLine)} {answer : Answer} {reply : Reply} {q' : SharedProgress} {q : Progress}

theorem results_later (h : List.Forall₂ (Result.Shows m) results replies) (hm : m.Extends m') :
    List.Forall₂ (Result.Shows m') results replies := h.imp fun _ _ hr => hr.later hm

theorem undo_later {lines : List SharedLine} {undo : List CmdLine} (h : List.Forall₂ (SharedLine.Shows m) lines undo)
    (hm : m.Extends m') : List.Forall₂ (SharedLine.Shows m') lines undo := h.imp fun _ _ hu => hu.later hm

theorem undos_later (h : ShowsLines m undos undoCmdLines) (hm : m.Extends m') : ShowsLines m' undos undoCmdLines :=
  h.imp fun _ _ hundo => undo_later hundo hm

theorem Answer.Shows.later (h : answer.Shows m reply) (hm : m.Extends m') : answer.Shows m' reply := by
  cases h with
  | one h => exact .one (h.later hm)
  | multiRaw h => exact .multiRaw (results_later h hm)

theorem Answer.Shows.toReply (h : answer.Shows m reply) : answer.toReply m = reply := by
  cases h with
  | one h => exact h.2
  | multiRaw h =>
      rw [Answer.toReply]
      congr 1
      induction h with
      | nil => rfl
      | cons hr _ ih => rw [List.map_cons, hr.2, ih]

theorem SharedProgress.Shows.later (h : q'.Shows m q) (hm : m.Extends m') : q'.Shows m' q := by
  cases h with
  | normal line => exact .normal line
  | multi writeKeys cmdLines hresults hundos =>
      exact .multi writeKeys cmdLines (results_later hresults hm) (undos_later hundos hm)
  | executing writeKeys cmdLine cmdLines hresults hundo hundos =>
      exact .executing writeKeys cmdLine cmdLines (results_later hresults hm) (undo_later hundo hm)
        (undos_later hundos hm)
  | undo h => exact .undo (undo_later h hm)
  | done h => exact .done (h.later hm)

theorem SharedProgress.Shows.answer_none (h : q'.Shows m q) (hanswer : q'.answer = none) : q.answer = none := by
  cases h with
  | done => cases hanswer
  | _ => rfl

theorem SharedProgress.Shows.answer_some (h : q'.Shows m q) (hanswer : q'.answer = some answer) :
    ∃ reply, q.answer = some reply ∧ answer.Shows m reply := by
  cases h with
  | done h =>
      cases hanswer
      exact ⟨_, rfl, h⟩
  | _ => cases hanswer

theorem Result.Shows.isErrorReply_eq {result : Result} (h : result.Shows m reply) :
    result.isErrorReply = Protocol.isErrorReply reply := by
  obtain ⟨-, rfl⟩ := h
  cases result with
  | own reply => rfl
  | bulk slice => exact (isErrorReply_bulk _).symm
  | multiBulk slices => exact (isErrorReply_multiBulk _).symm

section

variable {result : Option Result} {r : Option Reply}

theorem executed_shows (h : Option.Rel (Result.Shows m) result r) :
    (SharedProgress.executed result).Shows m (.executed r) := by
  cases h with
  | some h => exact .done (.one h)
  | none => exact .done (.one (.own _))

theorem lineExecuted_shows {lines : List SharedLine} {undo : List CmdLine}
    (h : Option.Rel (Result.Shows m) result r) (writeKeys : List Bytes) (cmdLines : List CmdLine)
    (hresults : List.Forall₂ (Result.Shows m) results replies)
    (hundo : List.Forall₂ (SharedLine.Shows m) lines undo) (hundos : ShowsLines m undos undoCmdLines) :
    (SharedProgress.lineExecuted writeKeys cmdLines results lines undos result).Shows m
      (.lineExecuted writeKeys cmdLines replies undo undoCmdLines r) := by
  cases h with
  | some h =>
      rw [SharedProgress.lineExecuted, Progress.lineExecuted, h.isErrorReply_eq]
      split
      · exact .undo (List.rel_flatten hundos)
      · exact .multi writeKeys cmdLines (List.rel_append hresults (.cons h .nil)) (.cons hundo hundos)
  | none => exact .done (.one (.own _))

theorem undoFound_shows {found : Option (List SharedLine)} {lines : Option (List CmdLine)}
    (hfound : Option.Rel (List.Forall₂ (SharedLine.Shows m)) found lines) (writeKeys : List Bytes)
    (cmdLine : CmdLine) (cmdLines : List CmdLine) (hresults : List.Forall₂ (Result.Shows m) results replies)
    (hundos : ShowsLines m undos undoCmdLines) :
    (SharedProgress.undoFound writeKeys cmdLine cmdLines results undos found).Shows m
      (.undoFound writeKeys cmdLine cmdLines replies undoCmdLines lines) := by
  cases hfound with
  | some hundo => exact .executing writeKeys cmdLine cmdLines hresults hundo hundos
  | none => exact .done (.one (.own _))

theorem lineUndone_shows {lines : List SharedLine} {cmdLines : List CmdLine}
    (h : Option.Rel (Result.Shows m) result r) (hlines : List.Forall₂ (SharedLine.Shows m) lines cmdLines) :
    (SharedProgress.lineUndone lines result).Shows m (.lineUndone cmdLines r) := by
  cases h with
  | some h => exact .undo hlines
  | none => exact .done (.one (.own _))

end

end

section

variable [LinearOrder σ] [Inhabited σ] {s : Shared σ} {w : World σ} {line : CmdLine} {q' : SharedProgress}
  {q : Progress}

theorem getUndoLogs_moves (line : CmdLine) : Moves (Quiet env) (Transaction.getUndoLogs env line) := by
  cases line with
  | nil => exact .panics
  | cons name args =>
      rw [Transaction.getUndoLogs]
      split
      · exact .pure _
      · next c _ =>
          split
          · exact .pure _
          · next undo hundo => exact undo_moves env args c undo hundo

omit [LinearOrder σ] [Inhabited σ] in
theorem Shared.Consistent.quiet (hs : s.Consistent) (h : Quiet env s.world w) : { s with world := w }.Consistent := by
  intro key b hb
  rcases h.2.2 key with hsame | hout
  · exact hs key b (hsame.1 ▸ hb)
  · rw [show _ = _ from hout.2.1] at hb
    cases hb

omit [LinearOrder σ] [Inhabited σ] in
theorem share_found (hs : s.Consistent) (found : Option (List CmdLine)) :
    Option.Rel (List.Forall₂ (SharedLine.Shows s.memory)) (found.map fun lines => lines.map (s.share env)) found := by
  cases found with
  | none => exact .none
  | some lines =>
      apply Option.Rel.some
      exact List.forall₂_map_left_iff.mpr (List.forall₂_same.mpr fun line _ => SharedLine.share_shows hs line)

def Progress.lines : Progress → List CmdLine
  | .normal line => [line]
  | .multi _ cmdLines _ undoCmdLines => cmdLines ++ undoCmdLines.flatten
  | .executing _ cmdLine cmdLines _ found undoCmdLines => cmdLine :: cmdLines ++ (found :: undoCmdLines).flatten
  | .undo cmdLines => cmdLines
  | .done _ => []

def Progress.Gentle (q : Progress) : Prop := ∀ line ∈ q.lines, ¬ Overwrites line

/-- What one step does with slices is what it does with values. -/
structure Advanced (env : Env σ) (fits : Bool) (s : Shared σ) (q' : SharedProgress) (q : Progress) : Prop where
  world : (advanceShared env fits q' s).2.world = (advance env q s.world).2
  consistent : (advanceShared env fits q' s).2.Consistent
  later : s.memory.Extends (advanceShared env fits q' s).2.memory
  shows : (advanceShared env fits q' s).1.Shows (advanceShared env fits q' s).2.memory (advance env q s.world).1

theorem advance_shows (env : Env σ) (fits : Bool) (hs : s.Consistent) (hq : q'.Shows s.memory q) (hgentle : q.Gentle) :
    Advanced env fits s q' q := by
  cases hq with
  | normal line =>
      obtain ⟨hworld, hconsistent, hlater, hresult⟩ := Shared.runLine_spec fits none hs
        (hgentle line (List.mem_singleton.mpr rfl)) fun _ hslice => by cases hslice
      exact ⟨hworld, hconsistent, hlater, executed_shows hresult⟩
  | multi writeKeys cmdLines hresults hundos =>
      cases cmdLines with
      | nil =>
          obtain ⟨-, versionMap, hfinal⟩ := (wp_iff _ (fun r w' => r = some PUnit.unit ∧
            ∃ versionMap, w' = s.world.versions versionMap) s.world).mp (wp_addVersion writeKeys s.world)
          refine ⟨rfl, ?_, .refl _, .done (.multiRaw hresults)⟩
          intro key b hb
          simp only [advanceShared, hfinal] at hb
          exact hs key b hb
      | cons line cmdLines =>
          have hquiet := (wp_iff _ (fun _ w' => Quiet env s.world w') s.world).mp (getUndoLogs_moves line s.world)
          exact ⟨rfl, hs.quiet hquiet, .refl _, undoFound_shows (share_found hs _) _ _ _ hresults hundos⟩
  | executing writeKeys cmdLine cmdLines hresults hundo hundos =>
      obtain ⟨hworld, hconsistent, hlater, hresult⟩ := Shared.runLine_spec fits none hs
        (hgentle cmdLine (List.mem_append_left _ List.mem_cons_self)) fun _ hslice => by cases hslice
      exact ⟨hworld, hconsistent, hlater, lineExecuted_shows hresult _ _ (results_later hresults hlater)
        (undo_later hundo hlater) (undos_later hundos hlater)⟩
  | undo h =>
      cases h with
      | nil => exact ⟨rfl, hs, .refl _, .done (.one (.own _))⟩
      | @cons u line us lines hu hlines =>
          have hran : s.Ran env line (s.runLine env fits u.held (u.read s.memory)) := by
            rw [hu.read]
            exact Shared.runLine_spec fits u.held hs (hgentle line List.mem_cons_self) hu.held
          obtain ⟨hworld, hconsistent, hlater, hresult⟩ := hran
          exact ⟨hworld, hconsistent, hlater, lineUndone_shows hresult (undo_later hlines hlater)⟩
  | done h => exact ⟨rfl, hs, .refl _, .done h⟩

omit [LinearOrder σ] [Inhabited σ] in
theorem not_overwrites {name : Slice} {args : List Slice} {c : CommandName}
    (hc : cmdTable (toLower (text name)) = some c) (hgentle : c ∉ overwriting) : ¬ Overwrites (name :: args) := by
  rintro ⟨c', hmem, hc'⟩
  cases hc.symm.trans hc'
  exact hgentle hmem

theorem restorer_gentle : ∀ p ∈ restorers, p.2 ∉ overwriting := by decide

omit [LinearOrder σ] [Inhabited σ] in
theorem UndoLine.gentle {key : Bytes} (h : UndoLine key line) : ¬ Overwrites line := by
  cases h with
  | del => exact not_overwrites (c := .del) rfl (by decide)
  | set s => exact not_overwrites (c := .set) rfl (by decide)
  | item p first args hp hfirst => exact not_overwrites (restorer_name p hp) (restorer_gentle p hp)

variable {r : Request}

/-- The lines to undo a line overwrite nothing either. -/
theorem Fits.gentle_advance (moment : Moment) (hq : Fits env r q) (hgentle : q.Gentle) (hw : w.Timeless) :
    (advance (env.at moment) q w).1.Gentle := by
  have hdone (reply : Reply) : (Progress.done reply).Gentle := fun line hline => by cases hline
  cases q with
  | normal line => exact hdone _
  | multi writeKeys lines results undos =>
      cases lines with
      | nil => exact hdone _
      | cons line lines =>
          have hlocal := @Covered.getUndoLogs_local _ _ _ env moment _ _ (hq.1 line List.mem_cons_self)
          rw [advance, Progress.run]
          cases hfound : value (Transaction.getUndoLogs (env.at moment) line) w with
          | none => exact hdone _
          | some found =>
              intro l hl
              rcases List.mem_append.mp hl with hl | hl
              · exact hgentle l (List.mem_append_left _ hl)
              · rcases List.mem_append.mp hl with hl | hl
                · obtain ⟨key, -, hundo⟩ := hlocal.gives w hw found hfound l hl
                  exact hundo.gentle
                · exact hgentle l (List.mem_append_right _ hl)
  | executing writeKeys line lines results undo undos =>
      rw [advance, Progress.run, Progress.lineExecuted.eq_def]
      split
      · exact hdone _
      · split
        · exact fun l hl => hgentle l (List.mem_append_right _ (List.mem_append_right _ hl))
        · intro l hl
          rcases List.mem_append.mp hl with hl | hl
          · exact hgentle l (List.mem_append_left _ (List.mem_cons_of_mem _ hl))
          · exact hgentle l (List.mem_append_right _ hl)
  | undo lines =>
      cases lines with
      | nil => exact hdone _
      | cons line lines =>
          rw [advance, Progress.run, Progress.lineUndone.eq_def]
          split
          · exact hdone _
          · exact fun l hl => hgentle l (List.mem_cons_of_mem _ hl)
  | done reply => exact hdone _

def Request.lines : Request → List CmdLine
  | .normal line => [line]
  | .multi cmdLines => cmdLines

/-- No line of the request writes into the slice that is stored. -/
def Request.Gentle (r : Request) : Prop := ∀ line ∈ r.lines, ¬ Overwrites line

structure Shared.Holds (s : Shared σ) (w : World σ) : Prop where
  world : s.world = w
  consistent : s.Consistent
  timeless : w.Timeless

structure SharedProgress.Follows (env : Env σ) (s : Shared σ) (q' : SharedProgress) (q : Progress) : Prop where
  shows : q'.Shows s.memory q
  gentle : q.Gentle
  fits : ∃ r, Fits env r q

theorem Request.Gentle.follows (hgentle : r.Gentle) (h : r.Declared env) :
    (r.startShared env).Follows env s (r.start env) := by
  refine ⟨?_, ?_, r, h.fits_start⟩
  · cases r with
    | normal line => exact .normal line
    | multi cmdLines => exact .multi _ cmdLines .nil .nil
  · cases r with
    | normal line => exact hgentle
    | multi cmdLines =>
        intro line hline
        exact hgentle line (by simpa [Request.start, Progress.lines, Request.lines] using hline)

/-- As long as nothing is overwritten, slices are as good as values. -/
theorem sharedProtocol_refines (env : Env σ) (locks : Locks) :
    Refines (sharedProtocol env locks) (protocol env locks) Prod.fst (fun r => r.Declared env ∧ r.Gentle)
      Shared.written (fun s t => s.memory.Extends t.memory) Shared.Holds (SharedProgress.Follows env)
      (fun s answer => ∃ reply, answer.Shows s.memory reply) where
  discipline := rfl
  label_surjective := fun moment => ⟨(moment, false), rfl⟩
  enter r s w h := by
    obtain ⟨rfl, hconsistent, htimeless⟩ := h
    obtain ⟨versionMap, henter⟩ := enter_versions env r s.world
    refine ⟨⟨rfl, ?_, (protocol_lawful env locks).good_enter r _ htimeless⟩, .refl _⟩
    intro key b hb
    simp only [sharedProtocol, Shared.enter, henter] at hb
    exact hconsistent key b hb
  start r s w hr _ := hr.2.follows hr.1
  advance e s w q' q hworld hq hanswer := by
    obtain ⟨rfl, hconsistent, htimeless⟩ := hworld
    obtain ⟨hshows, hgentle, r, hfits⟩ := hq
    obtain ⟨hworld, hnext, hlater, hshows'⟩ := advance_shows (env.at e.1) e.2 hconsistent hshows hgentle
    have hnone := hshows.answer_none hanswer
    exact ⟨⟨hworld, hnext, (protocol_lawful env locks).good_advance e.1 r q _ hfits htimeless hnone⟩,
      ⟨hshows', hfits.gentle_advance e.1 hgentle htimeless,
        r, (protocol_lawful env locks).fits_advance e.1 r q _ hfits htimeless hnone⟩, hlater⟩
  answer_none s q' q h := h.shows.answer_none
  answer_some s q' q answer h hanswer := by
    obtain ⟨reply, hreply, hshows⟩ := h.shows.answer_some hanswer
    refine ⟨⟨reply, hshows⟩, hreply.trans ?_⟩
    rw [Shared.written, hshows.toReply]
  progress_later s t q' q hlater h := ⟨h.shows.later hlater, h.gentle, h.fits⟩
  settled_later s t answer hlater h := by
    obtain ⟨reply, hshows⟩ := h
    have hshows' := hshows.later hlater
    refine ⟨⟨reply, hshows'⟩, ?_⟩
    rw [Shared.written, Shared.written, hshows'.toReply, hshows.toReply]

/-- The data and the replies are those of the requests one after the other, each answered before the
next one. -/
def Serialized {ι : Type} (env : Env σ) (locks : Locks) (s : Shared σ)
    (d : Desk ι (Fin locks.size) (Shared σ) Request SharedProgress Answer Reply) : Prop :=
  ∃ (replied order : List (ι × Request × Reply)) (t : Shared σ),
    SerialShown (sharedProtocol env locks) Shared.written s order t ∧ order.Perm replied ∧
      (replied.map fun e => (e.1, e.2.1)) = (d.site.log.map fun e => (e.1, e.2.1)) ∧
      (∀ i b, d.shown i = some b → ∃ c r, replied[i]? = some (c, r, b)) ∧
      ∀ key, d.site.world.world.db.data.lookup key = t.world.db.data.lookup key

/-- Where no line is `SETRANGE` or `SETBIT`, the data and all replies are those of a serial execution. -/
theorem replies_serializable {ι : Type} [DecidableEq ι] (env : Env σ) (locks : Locks)
    (d : Desk ι (Fin locks.size) (Shared σ) Request SharedProgress Answer Reply) (hs : s.Consistent)
    (hw : s.world.Timeless)
    (h : Desk.Reachable (sharedProtocol env locks) (fun r => r.Declared env ∧ r.Gentle) Shared.written s d)
    (hfree : ∀ c r, d.site.locks.stages c ≠ .holding r) : Serialized env locks s d := by
  obtain ⟨order, t, w₁, w₂, hserial, hlog, hshown, hworld, ht, hsame⟩ :=
    shown_of_reachable (sharedProtocol_refines env locks) (protocol_lawful env locks) (fun r hr => hr.1.fits_start)
      hw ⟨rfl, hs, hw⟩ h hfree
  refine ⟨order, order, t, hserial, .refl _, hlog, hshown, fun key => ?_⟩
  rw [hworld.world, ht.world]
  exact congrFun hsame key

end

section

variable [LinearOrder σ] [Inhabited σ] {s t : Shared σ} {line : CmdLine} {key : Slice} {W R : Set Bytes}

omit [LinearOrder σ] [Inhabited σ] in
theorem getAsString_confined (h : text key ∈ W ∪ R) : Confined W R (getAsString env (text key)) := by
  apply (getAs_confined h _).seq
  intro r
  split
  · exact .pure trivial
  · exact .pure trivial

omit [LinearOrder σ] [Inhabited σ] in
theorem execGet_confined (h : text key ∈ W ∪ R) : Confined W R (execGet env [key]) := by
  apply (getAsString_confined h).seq
  intro r
  split <;> exact .pure trivial

omit [LinearOrder σ] [Inhabited σ] in
theorem execIncrByFloat_confined (h : text key ∈ W) (rawDelta : Slice) :
    Confined W R (execIncrByFloat env [key, rawDelta]) := by
  simp only [execIncrByFloat]
  split
  · exact .pure trivial
  · apply (getAsString_confined (.inl h)).seq
    intro r
    split
    · exact .pure trivial
    · exact put_log_confined h _ _ _
    · split
      · exact .pure trivial
      · exact put_log_confined h _ _ _

omit [LinearOrder σ] [Inhabited σ] in
theorem execSetRange_confined (h : text key ∈ W) (rawOffset value : Slice) :
    Confined W R (execSetRange env [key, rawOffset, value]) := by
  simp only [execSetRange]
  split
  · exact .pure trivial
  · apply (getAsString_confined (.inl h)).seq
    intro r
    split
    · exact .pure trivial
    · split
      · exact .panics
      · exact put_log_confined h _ _ _

/-- A normal command is answered after one step. -/
theorem normal_goes {locks : Locks} {q : SharedProgress} {answer : Answer}
    (h : Goes (sharedProtocol env locks) (.normal line) s q t) (hanswer : q.answer = some answer) :
    ∃ moment fits, answer = .one ((s.runLine (env.at moment) fits none line).1.getD (.own .unknownErr)) ∧
      t = (s.runLine (env.at moment) fits none line).2 := by
  rcases h.once fun e => Option.some_ne_none _ with ⟨rfl, rfl⟩ | ⟨e, rfl, rfl⟩
  · cases hanswer
  · cases hanswer
    exact ⟨e.1, e.2, rfl, rfl⟩

/-- A normal command of a client while no other one is there. -/
theorem normal_alone {ι : Type} [DecidableEq ι] {locks : Locks} {admitted : Request → Prop} {c : ι}
    {stages : ι → Stage (Fin locks.size) Request} {progress : ι → Option SharedProgress}
    {log : List (ι × Request × Answer)} {f : ℕ → Option Reply} (moment : Moment) (fits : Bool)
    (hr : admitted (.normal line)) (hidle : stages c = .idle) (hfirst : ∀ e ∈ log, e.1 ≠ c) {result : Result}
    (h : (s.enter env (.normal line)).runLine (env.at moment) fits none line = (some result, t)) :
    Desk.Steps (sharedProtocol env locks) admitted Shared.written c
      ⟨⟨⟨fun _ => .free, stages⟩, s, progress, log⟩, f⟩
      ⟨⟨⟨fun _ => .free, stages⟩, t, Function.update progress c (some (.executed (some result))),
        log ++ [(c, .normal line, .one result)]⟩, f⟩ := by
  have hgoes : Goes (sharedProtocol env locks) (.normal line) (s.enter env (.normal line)) _ _ :=
    .step (moment, fits) .refl rfl
  have hstep : (sharedProtocol env locks).advance (moment, fits) (.normal line) (s.enter env (.normal line)) =
      (.executed (some result), t) := by
    change (SharedProgress.executed (Shared.runLine _ _ _ _ _).1, (Shared.runLine _ _ _ _ _).2) = _
    rw [h]
  rw [hstep] at hgoes
  refine answer_alone hidle (fun i r a hlog => ?_) hr hgoes rfl
  exact absurd rfl (hfirst _ (List.mem_of_getElem? hlog))

/-- The reply to a client is written when the command of another one has been run. -/
theorem late_reply {ι : Type} [DecidableEq ι] (locks : Locks) (admitted : Request → Prop) {c c' : ι}
    (hne : c ≠ c') {line' : CmdLine} {u : Shared σ} {result result' : Result} (moment : Moment) (hr : admitted (.normal line))
    (hr' : admitted (.normal line'))
    (h : (s.enter env (.normal line)).runLine (env.at moment) false none line = (some result, t))
    (h' : (t.enter env (.normal line')).runLine (env.at moment) false none line' = (some result', u)) :
    ∃ d : Desk ι (Fin locks.size) (Shared σ) Request SharedProgress Answer Reply,
      Desk.Reachable (sharedProtocol env locks) admitted Shared.written s d ∧
      (∀ c r, d.site.locks.stages c ≠ .holding r) ∧
      d.site.log = [(c, .normal line, .one result), (c', .normal line', .one result')] ∧
      d.shown 0 = some (result.toReply u.memory) := by
  let progress : ι → Option SharedProgress := Function.update (fun _ => none) c (some (.executed (some result)))
  let d : Desk ι (Fin locks.size) (Shared σ) Request SharedProgress Answer Reply :=
    ⟨⟨⟨fun _ => .free, fun _ => .idle⟩, u, Function.update progress c' (some (.executed (some result'))),
      [(c, .normal line, .one result), (c', .normal line', .one result')]⟩, fun _ => none⟩
  have hfirst : Desk.Steps (sharedProtocol env locks) admitted Shared.written c
      ⟨⟨⟨fun _ => .free, fun _ => .idle⟩, s, fun _ => none, []⟩, fun _ => none⟩
      ⟨⟨⟨fun _ => .free, fun _ => .idle⟩, t, progress, [(c, .normal line, .one result)]⟩, fun _ => none⟩ :=
    normal_alone moment false hr rfl (by simp) h
  have hsecond : Desk.Steps (sharedProtocol env locks) admitted Shared.written c'
      ⟨⟨⟨fun _ => .free, fun _ => .idle⟩, t, progress, [(c, .normal line, .one result)]⟩, fun _ => none⟩
      d :=
    normal_alone moment false hr' rfl (by simpa using hne) h'
  have hreply : Desk.Step (sharedProtocol env locks) admitted Shared.written c d _ :=
    .answer 0 (.normal line) (.one result) rfl rfl rfl
  have hinitial : Desk.Reachable (sharedProtocol env locks) admitted Shared.written s (.initial ι _ _ _ _ _ s) := .refl
  exact ⟨_, ((hinitial.steps hfirst).steps hsecond).tail ⟨c, hreply⟩, by simp [d], rfl,
    by simp [d, Shared.written, Answer.toReply]⟩

/-- An error is not a slice. -/
theorem runLine_error {fits : Bool} {e : Bytes} (h : value (execWithLock env line) s.world = some (.standardErr e)) :
    (s.runLine env fits none line).1 = some (.own (.standardErr e)) := by
  rw [Shared.runLine.eq_def]
  split
  · simp only [h]
    rfl
  · split
    · simp only [h]
      rfl
    · simp only [h]
      rfl

theorem runLine_world (fits : Bool) :
    (s.runLine env fits none line).2.world = final (execWithLock env line) s.world := by
  rw [Shared.runLine.eq_def]
  split
  · rfl
  · split <;> rfl

end

section

def Library.whole : Library ℤ :=
  { Library.plain with
    isDecimal := fun s => (parseInt 64 s).isSome
    addDecimal := fun a b => formatInt ((parseInt 64 a).getD 0 + (parseInt 64 b).getD 0) }

noncomputable def wholeNumbers : Env ℤ := { Env.plain 0 with lib := .whole }

def emptyShared : Shared ℤ := ⟨.empty, ⟨fun _ => 0, fun _ => 0⟩, fun _ => []⟩

def incrLine : CmdLine := cmdLine3 "INCRBYFLOAT" [some (bytes "k"), some (bytes "5")]

def setRangeLine : CmdLine := cmdLine3 "SETRANGE" [some (bytes "k"), some (bytes "0"), some (bytes "x")]

theorem incrLine_declared : Declared wholeNumbers incrLine := by
  refine ⟨_, _, .incrByFloat, rfl, rfl, rfl, fun moment => ?_⟩
  change Confined {key | key ∈ [bytes "k"]} _
    (execIncrByFloat (wholeNumbers.at moment) [some (bytes "k"), some (bytes "5")])
  exact execIncrByFloat_confined List.mem_cons_self _

theorem setRangeLine_declared : Declared wholeNumbers setRangeLine := by
  refine ⟨_, _, .setRange, rfl, rfl, rfl, fun moment => ?_⟩
  change Confined {key | key ∈ [bytes "k"]} _
    (execSetRange (wholeNumbers.at moment) [some (bytes "k"), some (bytes "0"), some (bytes "x")])
  exact execSetRange_confined List.mem_cons_self _ _

def getLine : CmdLine := cmdLine3 "GET" [some (bytes "k")]

theorem getLine_declared : Declared wholeNumbers getLine := by
  refine ⟨_, _, .get, rfl, rfl, rfl, fun moment => ?_⟩
  change Confined _ {key | key ∈ [bytes "k"]} (execGet (wholeNumbers.at moment) [some (bytes "k")])
  exact execGet_confined (.inr List.mem_cons_self)

theorem incrLine_gentle : ¬ Overwrites incrLine := not_overwrites (c := .incrByFloat) rfl (by decide)

theorem getLine_gentle : ¬ Overwrites getLine := not_overwrites (c := .get) rfl (by decide)

noncomputable def someMoment : Moment := ⟨0, wholeNumbers.choices⟩

theorem emptyShared_consistent : emptyShared.Consistent := fun key b hb => by
  rw [show emptyShared.world.db.data.lookup key = none from Finmap.lookup_empty _] at hb
  cases hb

theorem reads_run : ∃ t u : Shared ℤ,
    (emptyShared.enter wholeNumbers (.normal incrLine)).runLine (wholeNumbers.at someMoment) false none incrLine =
      (some (.bulk [(bytes "k", 0)]), t) ∧
    (t.enter wholeNumbers (.normal getLine)).runLine (wholeNumbers.at someMoment) false none getLine =
      (some (.bulk [(bytes "k", 0)]), u) ∧ u.memory.cell (bytes "k", 0) = 53 :=
  ⟨_, _, rfl, rfl, rfl⟩

/-- A client increments `k`, and another one reads it before the reply is written. -/
theorem replies_serializable_get : ∃ d : Desk Bool (Fin 1) (Shared ℤ) Request SharedProgress Answer Reply,
    d.shown 0 = some (.bulk (some (bytes "5"))) ∧ Serialized wholeNumbers ⟨1, 0, rfl⟩ emptyShared d := by
  obtain ⟨t, u, ht, hu, hcell⟩ := reads_run
  obtain ⟨d, hreach, hfree, -, hshown⟩ := late_reply ⟨1, 0, rfl⟩ (fun r => r.Declared wholeNumbers ∧ r.Gentle)
    Bool.false_ne_true someMoment ⟨incrLine_declared, by simpa [Request.Gentle, Request.lines] using incrLine_gentle⟩
    ⟨getLine_declared, by simpa [Request.Gentle, Request.lines] using getLine_gentle⟩ ht hu
  refine ⟨d, ?_, replies_serializable wholeNumbers ⟨1, 0, rfl⟩ d emptyShared_consistent rfl hreach hfree⟩
  rw [hshown, Result.toReply, Lib.Cells.Memory.read, List.map_singleton, hcell]
  rfl

/-- The reply to the first line shares the slice that the second one overwrites. -/
theorem lines_run : ∃ t u : Shared ℤ,
    (emptyShared.enter wholeNumbers (.normal incrLine)).runLine (wholeNumbers.at someMoment) false none incrLine =
      (some (.bulk [(bytes "k", 0)]), t) ∧
    (t.enter wholeNumbers (.normal setRangeLine)).runLine (wholeNumbers.at someMoment) false none setRangeLine =
      (some (.own (.int 1)), u) ∧ u.memory.cell (bytes "k", 0) = 120 :=
  ⟨_, _, rfl, rfl, rfl⟩

theorem string_of_timeless {w : World σ} {key b : Bytes} (hw : w.Timeless)
    (h : w.db.data.lookup key = some (.str (some b))) : (w.db.slot key).string env.now = .ok (some b) := by
  rw [← World.string_slot, World.string_eq_some, hw.live_eq, h]

/-- What an increment finds after the other line is no number. -/
theorem incrLine_fails {w : World ℤ} (moment : Moment) (hw : w.Timeless)
    (h : w.db.data.lookup (bytes "k") = some (.str (some (bytes "x")))) :
    value (execWithLock (wholeNumbers.at moment) incrLine) w = some notFloat := by
  have hdelta : (wholeNumbers.at moment).lib.isDecimal (bytes "5") = true := rfl
  have hold : (wholeNumbers.at moment).lib.isDecimal (bytes "x") = false := rfl
  have hrun : wp (execIncrByFloat (wholeNumbers.at moment) [some (bytes "k"), some (bytes "5")])
      (fun r _ => r = some notFloat) w := by
    simp only [execIncrByFloat, text, Option.getD_some, hdelta, not_true_eq_false, if_false, wp_bind, wp_getAsString,
      string_of_timeless hw h, hold, Bool.false_eq_true, not_false_eq_true, if_true, wp_pure]
  exact (wp_iff _ _ w).mp hrun

theorem slot_of_absent {w : World σ} {key : Bytes} (hw : w.Timeless) (h : w.db.data.lookup key = none) :
    (w.db.slot key).string env.now = .ok none := by
  rw [Slot.string, ← DB.live_slot, hw.live_eq, h]

theorem incrLine_answers {w : World ℤ} (moment : Moment) (hw : w.Timeless)
    (h : w.db.data.lookup (bytes "k") = none) :
    value (execWithLock (wholeNumbers.at moment) incrLine) w = some (.bulk (some (bytes "5"))) := by
  have hdelta : (wholeNumbers.at moment).lib.isDecimal (bytes "5") = true := rfl
  have hrun : wp (execIncrByFloat (wholeNumbers.at moment) [some (bytes "k"), some (bytes "5")])
      (fun r _ => r = some (.bulk (some (bytes "5")))) w := by
    simp only [execIncrByFloat, text, Option.getD_some, hdelta, not_true_eq_false, if_false, wp_bind, wp_getAsString,
      slot_of_absent hw h, putEntity, wp_modifyDB, wp_addAof, wp_pure]
  exact (wp_iff _ _ w).mp hrun

theorem setRangeLine_stores {w : World ℤ} (moment : Moment) (hw : w.Timeless)
    (h : w.db.data.lookup (bytes "k") = none) :
    (final (execWithLock (wholeNumbers.at moment) setRangeLine) w).db.data.lookup (bytes "k") =
      some (.str (some (bytes "x"))) := by
  have hoffset : parseInt 64 (bytes "0") = some 0 := rfl
  have hrun : wp (execSetRange (wholeNumbers.at moment) [some (bytes "k"), some (bytes "0"), some (bytes "x")])
      (fun _ w' => w'.db.data.lookup (bytes "k") = some (.str (some (bytes "x")))) w := by
    simp only [execSetRange, text, Option.getD_some, hoffset, wp_bind, wp_getAsString, slot_of_absent hw h]
    simp [putEntity, append, overwrite, bytes, lookup_put]
  exact (wp_iff _ _ w).mp hrun

theorem enter_empty (r : Request) : ((emptyShared.enter wholeNumbers r).world.Timeless ∧
    (emptyShared.enter wholeNumbers r).world.db.data.lookup (bytes "k") = none) ∧
    (emptyShared.enter wholeNumbers r).Consistent := by
  obtain ⟨versionMap, henter⟩ := enter_versions wholeNumbers r World.empty
  have hworld : (emptyShared.enter wholeNumbers r).world = World.empty.versions versionMap := henter
  have hdata (key : Bytes) : (emptyShared.enter wholeNumbers r).world.db.data.lookup key = none := by
    rw [hworld]
    exact Finmap.lookup_empty _
  refine ⟨⟨by rw [hworld]; rfl, hdata _⟩, fun key b hb => ?_⟩
  rw [hdata] at hb
  cases hb

/-- The increment alone answers the number that it stores. -/
theorem incrLine_first (moment : Moment) (fits : Bool) {p : Option Result × Shared ℤ}
    (hp : (emptyShared.enter wholeNumbers (.normal incrLine)).runLine (wholeNumbers.at moment) fits none incrLine = p) :
    (p.1.getD (.own .unknownErr)).toReply p.2.memory = .bulk (some (bytes "5")) := by
  obtain ⟨⟨htimeless, hnone⟩, hconsistent⟩ := enter_empty (.normal incrLine)
  have hran : Shared.Ran (wholeNumbers.at moment) _ _ _ :=
    Shared.runLine_spec fits none hconsistent incrLine_gentle fun _ hslice => by cases hslice
  have hresult := hran.result
  rw [incrLine_answers moment htimeless hnone, hp] at hresult
  obtain ⟨result, t⟩ := p
  cases hresult with
  | some h => exact h.2

/-- The increment after the other line answers an error. -/
theorem incrLine_second (moment moment' : Moment) (fits fits' : Bool) {s : Shared ℤ} {p : Option Result × Shared ℤ}
    (hs : ((emptyShared.enter wholeNumbers (.normal setRangeLine)).runLine (wholeNumbers.at moment) fits none
      setRangeLine).2 = s)
    (hp : (s.enter wholeNumbers (.normal incrLine)).runLine (wholeNumbers.at moment') fits' none incrLine = p) :
    (p.1.getD (.own .unknownErr)).toReply p.2.memory = notFloat := by
  obtain ⟨⟨htimeless, hnone⟩, -⟩ := enter_empty (.normal setRangeLine)
  have hstored := setRangeLine_stores moment htimeless hnone
  have htimeless' := (@Declared.execWithLock_confined _ _ _ _ moment _ setRangeLine_declared).timeless htimeless
  rw [← runLine_world fits, hs] at hstored htimeless'
  obtain ⟨versionMap, henter⟩ := enter_versions wholeNumbers (.normal incrLine) s.world
  have hworld : (s.enter wholeNumbers (.normal incrLine)).world = s.world.versions versionMap := henter
  have htimeless'' : (s.enter wholeNumbers (.normal incrLine)).world.Timeless := by
    rw [hworld]
    exact htimeless'
  have hfails := incrLine_fails moment' htimeless'' (by rw [hworld]; exact hstored)
  rw [← hp, runLine_error hfails]
  rfl

/-- The reply to `INCRBYFLOAT k 5` that is written after another client's `SETRANGE k 0 x` is `x`. -/
theorem not_replies_serializable : ¬ ∀ (env : Env ℤ) (locks : Locks) (s : Shared ℤ)
    (d : Desk Bool (Fin locks.size) (Shared ℤ) Request SharedProgress Answer Reply), s.Consistent →
      s.world.Timeless → Desk.Reachable (sharedProtocol env locks) (fun r => r.Declared env) Shared.written s d →
      (∀ c r, d.site.locks.stages c ≠ .holding r) → Serialized env locks s d := by
  intro h
  let locks : Locks := ⟨1, 0, rfl⟩
  obtain ⟨t, u, ht, hu, hcell⟩ := lines_run
  obtain ⟨d, hreach, hfree, hlog, hshown⟩ := late_reply locks (fun r => r.Declared wholeNumbers)
    Bool.false_ne_true someMoment incrLine_declared setRangeLine_declared ht hu
  obtain ⟨replied, order, v, hserial, hperm, hrequests, hreplied, -⟩ := h wholeNumbers locks emptyShared d
    emptyShared_consistent rfl hreach hfree
  obtain ⟨⟨c₁, r₁, b₁⟩, ⟨c₂, r₂, b₂⟩, rfl⟩ : ∃ e₁ e₂, replied = [e₁, e₂] :=
    List.length_eq_two.mp (by simpa [hlog] using congrArg List.length hrequests)
  rw [hlog] at hrequests
  simp only [List.map_cons, List.map_nil, List.cons.injEq, Prod.mk.injEq] at hrequests
  obtain ⟨⟨rfl, rfl⟩, ⟨rfl, rfl⟩, -⟩ := hrequests
  obtain ⟨_, _, hfirst⟩ := hreplied 0 _ hshown
  have hb : b₁ = .bulk (some (bytes "x")) := by
    cases hfirst
    rw [Result.toReply, Lib.Cells.Memory.read, List.map_singleton, hcell]
    rfl
  subst hb
  rcases List.perm_pair.mp hperm with rfl | rfl
  · obtain ⟨s₁, -, -, hserial₁, -, -, -⟩ := SerialShown.snoc_inv
      [(false, Request.normal incrLine, Reply.bulk (some (bytes "x")))] hserial
    obtain ⟨s₀, q, a, hserial₀, hgoes, ha, hreply⟩ := SerialShown.snoc_inv [] hserial₁
    obtain rfl := hserial₀.nil_inv
    obtain ⟨moment, fits, rfl, rfl⟩ := normal_goes hgoes ha
    have hfive := hreply.trans (incrLine_first moment fits rfl)
    exact absurd (Reply.bulk.inj hfive) (by decide)
  · obtain ⟨s₁, q, a, hserial₁, hgoes, ha, hreply⟩ := SerialShown.snoc_inv
      [(true, Request.normal setRangeLine, b₂)] hserial
    obtain ⟨s₀, q', a', hserial₀, hgoes', ha', -⟩ := SerialShown.snoc_inv [] hserial₁
    obtain rfl := hserial₀.nil_inv
    obtain ⟨moment, fits, rfl, rfl⟩ := normal_goes hgoes' ha'
    obtain ⟨moment', fits', rfl, rfl⟩ := normal_goes hgoes ha
    have herror := hreply.trans (incrLine_second moment moment' fits fits' rfl rfl)
    cases herror

end

end Traitor.Database
