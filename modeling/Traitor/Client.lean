import Mathlib.Data.List.Basic
import Mathlib.Data.List.Nodup
import Mathlib.Data.List.Range
import Mathlib.Logic.Function.Basic
import Mathlib.Tactic.Common
import Traitor.Basic

namespace Traitor.Client

variable {S ρ : Type}

structure Request where
  id : Nat
  args : List Bytes
deriving DecidableEq

inductive Writer
  | idle
  | writing (req : Request)
  | queueing (req : Request)

/-- A client with its connection and its server: `sendBuf` and `receiveBuf` hold the
requests and the replies on their way, and `reader` the reply that the reader loop
has taken. The last three fields are histories. -/
structure State (S ρ : Type) where
  server : S
  pendingReqs : List Request
  writer : Writer
  sendBuf : List Request
  receiveBuf : List ρ
  reader : Option ρ
  waitingReqs : List Request
  reply : Nat → Option ρ
  returned : List (Request × Option ρ)
  sent : List Request
  answered : List (Request × ρ)
  delivered : List (Request × ρ)

def chanSize : Nat := 256

def createClient (server : S) : State S ρ where
  server := server
  pendingReqs := []
  writer := .idle
  sendBuf := []
  receiveBuf := []
  reader := none
  waitingReqs := []
  reply _ := none
  returned := []
  sent := []
  answered := []
  delivered := []

/-- `take`, `write` and `queue` are the steps of the writer loop, `receive` and
`finish` those of the reader loop. -/
inductive Action
  | send (args : List Bytes)
  | take
  | write
  | queue
  | serve
  | receive
  | finish
  | timeOut (req : Request)
  | ret (req : Request)

def Action.internal : Action → Bool
  | .take | .write | .queue | .serve | .receive | .finish => true
  | _ => false

variable (answer : S → List Bytes → ρ × S)

/-- None is a step that blocks. -/
def step (s : State S ρ) : Action → Option (State S ρ)
  | .send args =>
      if s.pendingReqs.length < chanSize then
        let req := ⟨s.sent.length, args⟩
        some { s with pendingReqs := s.pendingReqs ++ [req], sent := s.sent ++ [req] }
      else none
  | .take =>
      match s.writer, s.pendingReqs with
      | .idle, req :: rest =>
          -- a request without arguments is dropped
          if req.args = [] then some { s with pendingReqs := rest }
          else some { s with pendingReqs := rest, writer := .writing req }
      | _, _ => none
  | .write =>
      match s.writer with
      | .writing req =>
          if s.sendBuf.length < chanSize then
            some { s with sendBuf := s.sendBuf ++ [req], writer := .queueing req }
          else none
      | _ => none
  | .queue =>
      match s.writer with
      | .queueing req =>
          if s.waitingReqs.length < chanSize then
            some { s with waitingReqs := s.waitingReqs ++ [req], writer := .idle }
          else none
      | _ => none
  | .serve =>
      match s.sendBuf with
      | [] => none
      | req :: rest =>
          if s.receiveBuf.length < chanSize then
            let (r, server) := answer s.server req.args
            some { s with
              server := server
              sendBuf := rest
              receiveBuf := s.receiveBuf ++ [r]
              answered := s.answered ++ [(req, r)] }
          else none
  | .receive =>
      match s.reader, s.receiveBuf with
      | none, r :: rest => some { s with reader := some r, receiveBuf := rest }
      | _, _ => none
  | .finish =>
      match s.reader, s.waitingReqs with
      | some r, req :: rest =>
          some { s with
            reader := none
            waitingReqs := rest
            reply := Function.update s.reply req.id (some r)
            delivered := s.delivered ++ [(req, r)] }
      | _, _ => none
  | .timeOut req =>
      if req ∈ s.sent ∧ req ∉ s.returned.map Prod.fst then
        some { s with returned := s.returned ++ [(req, none)] }
      else none
  | .ret req =>
      if req ∈ s.sent ∧ req ∉ s.returned.map Prod.fst then
        (s.reply req.id).map fun r => { s with returned := s.returned ++ [(req, some r)] }
      else none

def run (s : State S ρ) : List Action → Option (State S ρ)
  | [] => some s
  | a :: as => do run (← step answer s a) as

def serve (server : S) : List (List Bytes) → List ρ × S
  | [] => ([], server)
  | args :: rest =>
      let (r, server) := answer server args
      let (replies, server) := serve server rest
      (r :: replies, server)

/-- The steps of the loops and the server that remain, at most. -/
def load (s : State S ρ) : Nat :=
  6 * s.pendingReqs.length +
    (match s.writer with
      | .idle => 0
      | .writing _ => 5
      | .queueing _ => 1) +
    3 * s.sendBuf.length + 2 * s.receiveBuf.length + s.reader.toList.length

def Request.busy (req : Request) : Bool := req.args ≠ []

/-- What a client promises: a call that returns a reply returns the one to its
request, no reply is delivered twice and none is left out. When the loops and the
server have come to rest, which they do, every request has got its reply. -/
structure Matched (server : S) (s : State S ρ) : Prop where
  own : ∀ req r, (req, some r) ∈ s.returned → (req, r) ∈ s.delivered
  delivered : s.delivered <+: s.answered
  answered : (serve answer server (s.answered.map fun a => a.1.args)).1 = s.answered.map Prod.snd
  unique : (s.answered.map fun a => a.1.id).Nodup
  rests : ∀ a t, a.internal → step answer s a = some t → load t < load s
  settled : (∀ a, a.internal → step answer s a = none) →
    s.delivered = s.answered ∧ s.delivered.map Prod.fst = s.sent.filter Request.busy

def Writer.unwritten : Writer → List Request
  | .writing req => [req]
  | _ => []

def Writer.unqueued : Writer → List Request
  | .queueing req => [req]
  | _ => []

/-- Every stage holds its requests in the order in which they were sent, and what is
written and not finished waits in that order. -/
structure Ordered (server : S) (s : State S ρ) : Prop where
  sent : s.sent.filter Request.busy = s.answered.map Prod.fst ++ s.sendBuf ++
    s.writer.unwritten ++ s.pendingReqs.filter Request.busy
  waiting : s.answered.map Prod.fst ++ s.sendBuf = s.delivered.map Prod.fst ++ s.waitingReqs ++
    s.writer.unqueued
  replies : s.answered.map Prod.snd = s.delivered.map Prod.snd ++ s.reader.toList ++ s.receiveBuf
  ids : s.sent.map Request.id = List.range s.sent.length
  reply : ∀ id r, s.reply id = some r → ∃ req ∈ s.sent, req.id = id ∧ (req, r) ∈ s.delivered
  returned : ∀ req r, (req, some r) ∈ s.returned → (req, r) ∈ s.delivered
  serve : serve answer server (s.answered.map fun a => a.1.args) =
    (s.answered.map Prod.snd, s.server)

variable {answer} {server : S} {s t : State S ρ}

theorem serve_append (server : S) (l : List (List Bytes)) (args : List Bytes) :
    serve answer server (l ++ [args]) =
      ((serve answer server l).1 ++ [(answer (serve answer server l).2 args).1],
        (answer (serve answer server l).2 args).2) := by
  induction l generalizing server with
  | nil => rfl
  | cons a l ih => simp [serve, ih]

namespace Ordered

theorem mem_sent (h : Ordered answer server s) {req : Request} (hreq : req ∈ s.waitingReqs) :
    req ∈ s.sent := by
  have hmem : req ∈ s.answered.map Prod.fst ++ s.sendBuf := by simp [h.waiting, hreq]
  have hbusy : req ∈ s.sent.filter Request.busy := by
    rw [h.sent, List.append_assoc]
    exact List.mem_append_left _ hmem
  exact List.mem_of_mem_filter hbusy

theorem id_inj (h : Ordered answer server s) {req req' : Request} (hreq : req ∈ s.sent)
    (hreq' : req' ∈ s.sent) (hid : req.id = req'.id) : req = req' := by
  have hnodup : (s.sent.map Request.id).Nodup := h.ids ▸ List.nodup_range
  exact List.inj_on_of_nodup_map hnodup hreq hreq' hid

/-- A reply under the id of a request is the one that was delivered for it. -/
theorem delivered_of_reply (h : Ordered answer server s) {req : Request} {r : ρ} (hreq : req ∈ s.sent)
    (hr : s.reply req.id = some r) : (req, r) ∈ s.delivered := by
  obtain ⟨req', hsent, hid, hd⟩ := h.reply _ _ hr
  rwa [← h.id_inj hsent hreq hid]

theorem reply_update (h : Ordered answer server s) {req : Request} (hreq : req ∈ s.sent) (r : ρ) (id : Nat)
    (r' : ρ) (hr : Function.update s.reply req.id (some r) id = some r') :
    ∃ req' ∈ s.sent, req'.id = id ∧ (req', r') ∈ s.delivered ++ [(req, r)] := by
  by_cases hid : id = req.id
  · subst hid
    rw [Function.update_self] at hr
    obtain rfl := Option.some.inj hr
    exact ⟨req, hreq, rfl, by simp⟩
  · rw [Function.update_of_ne hid] at hr
    obtain ⟨req', hreq', hid', hd⟩ := h.reply id r' hr
    exact ⟨req', hreq', hid', List.mem_append_left _ hd⟩

theorem step {a : Action} (h : Ordered answer server s) (hs : step answer s a = some t) :
    Ordered answer server t := by
  have h' := h
  obtain ⟨hsent, hwaiting, hreplies, hids, hreply, hreturned, hserve⟩ := h
  cases a with
  | send args =>
      simp only [Client.step] at hs
      split at hs
      · obtain rfl := Option.some.inj hs
        refine ⟨?_, hwaiting, hreplies, ?_, ?_, hreturned, hserve⟩
        · simp [List.filter_append, hsent]
        · simp [List.range_succ, hids]
        · intro id r hr
          obtain ⟨req, hreq, hid, hd⟩ := hreply id r hr
          exact ⟨req, List.mem_append_left _ hreq, hid, hd⟩
      · simp at hs
  | take =>
      simp only [Client.step] at hs
      split at hs
      · rename_i req rest hw hp
        rw [hp, hw] at hsent
        split at hs
        · rename_i hargs
          obtain rfl := Option.some.inj hs
          refine ⟨?_, hwaiting, hreplies, hids, hreply, hreturned, hserve⟩
          simpa [hw, Request.busy, hargs] using hsent
        · rename_i hargs
          obtain rfl := Option.some.inj hs
          rw [hw] at hwaiting
          refine ⟨?_, hwaiting, hreplies, hids, hreply, hreturned, hserve⟩
          simpa [Request.busy, hargs, Writer.unwritten] using hsent
      · simp at hs
  | write =>
      simp only [Client.step] at hs
      split at hs
      · rename_i req hw
        rw [hw] at hsent hwaiting
        split at hs
        · obtain rfl := Option.some.inj hs
          refine ⟨?_, ?_, hreplies, hids, hreply, hreturned, hserve⟩
          · simpa [Writer.unwritten] using hsent
          · simpa [Writer.unqueued, ← List.append_assoc] using congrArg (· ++ [req]) hwaiting
        · simp at hs
      · simp at hs
  | queue =>
      simp only [Client.step] at hs
      split at hs
      · rename_i req hw
        rw [hw] at hsent hwaiting
        split at hs
        · obtain rfl := Option.some.inj hs
          refine ⟨hsent, ?_, hreplies, hids, hreply, hreturned, hserve⟩
          simpa [Writer.unqueued] using hwaiting
        · simp at hs
      · simp at hs
  | serve =>
      simp only [Client.step] at hs
      split at hs
      · simp at hs
      · rename_i req rest hb
        rw [hb] at hsent hwaiting
        split at hs
        · obtain rfl := Option.some.inj hs
          refine ⟨?_, ?_, ?_, hids, hreply, hreturned, ?_⟩
          · simpa using hsent
          · simpa using hwaiting
          · simp [hreplies]
          · simp [serve_append, hserve]
        · simp at hs
  | receive =>
      simp only [Client.step] at hs
      split at hs
      · rename_i r rest hreader hb
        obtain rfl := Option.some.inj hs
        refine ⟨hsent, hwaiting, ?_, hids, hreply, hreturned, hserve⟩
        simpa [hreader, hb] using hreplies
      · simp at hs
  | finish =>
      simp only [Client.step] at hs
      split at hs
      · rename_i r req rest hreader hw
        obtain rfl := Option.some.inj hs
        refine ⟨hsent, ?_, ?_, hids, ?_, ?_, hserve⟩
        · simpa [hw] using hwaiting
        · simpa [hreader] using hreplies
        · exact h'.reply_update (h'.mem_sent (by simp [hw])) r
        · exact fun req' r' hr => List.mem_append_left _ (hreturned req' r' hr)
      · simp at hs
  | timeOut req =>
      simp only [Client.step] at hs
      split at hs
      · obtain rfl := Option.some.inj hs
        refine ⟨hsent, hwaiting, hreplies, hids, hreply, ?_, hserve⟩
        intro req' r hr
        apply hreturned req' r
        simpa using hr
      · simp at hs
  | ret req =>
      simp only [Client.step] at hs
      split at hs
      · rename_i hreq
        obtain ⟨r, hr, rfl⟩ := Option.map_eq_some_iff.mp hs
        refine ⟨hsent, hwaiting, hreplies, hids, hreply, ?_, hserve⟩
        intro req' r' hr'
        rcases List.mem_append.mp hr' with hr' | hr'
        · exact hreturned req' r' hr'
        · obtain ⟨rfl, hsome⟩ := Prod.mk.inj (List.mem_singleton.mp hr')
          obtain rfl := Option.some.inj hsome
          exact h'.delivered_of_reply hreq.1 hr
      · simp at hs

theorem run {as : List Action} (h : Ordered answer server s) (hr : run answer s as = some t) :
    Ordered answer server t := by
  induction as generalizing s with
  | nil => exact Option.some.inj hr ▸ h
  | cons a as ih =>
      obtain ⟨u, hu, hr⟩ := Option.bind_eq_some_iff.mp hr
      exact ih (h.step hu) hr

theorem delivered_le (h : Ordered answer server s) : s.delivered.length ≤ s.answered.length := by
  have hlen := congrArg List.length h.replies
  simp only [List.length_map, List.length_append] at hlen
  omega

theorem delivered_prefix (h : Ordered answer server s) : s.delivered <+: s.answered := by
  have hle := h.delivered_le
  have hfst : s.delivered.map Prod.fst = (s.answered.take s.delivered.length).map Prod.fst := by
    have hw := congrArg (List.take s.delivered.length) h.waiting
    rwa [List.take_append_of_le_length (by simpa using hle), List.append_assoc,
      List.take_left' (by simp), ← List.map_take, eq_comm] at hw
  have hsnd : s.delivered.map Prod.snd = (s.answered.take s.delivered.length).map Prod.snd := by
    have hr := congrArg (List.take s.delivered.length) h.replies
    rwa [List.append_assoc, List.take_left' (by simp), ← List.map_take, eq_comm] at hr
  have hzip (l : List (Request × ρ)) : (l.map Prod.fst).zip (l.map Prod.snd) = l := by
    simpa [List.unzip_eq_map] using List.zip_unzip l
  have heq : s.delivered = s.answered.take s.delivered.length := by
    rw [← hzip s.delivered, hfst, hsnd, hzip]
    simp
  rw [heq]
  exact List.take_prefix _ _

theorem unique (h : Ordered answer server s) : (s.answered.map fun a => a.1.id).Nodup := by
  have hids : (s.sent.map Request.id).Nodup := h.ids ▸ List.nodup_range
  have hsub : (s.answered.map Prod.fst).Sublist s.sent := by
    refine List.Sublist.trans ?_ (List.filter_sublist (p := Request.busy))
    rw [h.sent, List.append_assoc, List.append_assoc]
    exact List.sublist_append_left _ _
  have hmap := hsub.map Request.id
  rw [List.map_map] at hmap
  exact hids.sublist hmap

end Ordered

theorem load_lt {a : Action} (ha : a.internal) (hs : step answer s a = some t) : load t < load s := by
  cases a with
  | send | timeOut | ret => simp [Action.internal] at ha
  | take =>
      simp only [step] at hs
      split at hs
      · rename_i req rest hw hp
        split at hs
        · obtain rfl := Option.some.inj hs
          simp only [load, hp, List.length_cons]
          omega
        · obtain rfl := Option.some.inj hs
          simp only [load, hp, hw, List.length_cons]
          omega
      · simp at hs
  | write =>
      simp only [step] at hs
      split at hs
      · rename_i req hw
        split at hs
        · obtain rfl := Option.some.inj hs
          simp only [load, hw, List.length_append, List.length_singleton]
          omega
        · simp at hs
      · simp at hs
  | queue =>
      simp only [step] at hs
      split at hs
      · rename_i req hw
        split at hs
        · obtain rfl := Option.some.inj hs
          simp only [load, hw]
          omega
        · simp at hs
      · simp at hs
  | serve =>
      simp only [step] at hs
      split at hs
      · simp at hs
      · rename_i req rest hb
        split at hs
        · obtain rfl := Option.some.inj hs
          simp only [load, hb, List.length_append, List.length_cons, List.length_nil]
          omega
        · simp at hs
  | receive =>
      simp only [step] at hs
      split at hs
      · rename_i r rest hreader hb
        obtain rfl := Option.some.inj hs
        simp only [load, hreader, hb, Option.toList, List.length_cons, List.length_nil]
        omega
      · simp at hs
  | finish =>
      simp only [step] at hs
      split at hs
      · rename_i r req rest hreader hw
        obtain rfl := Option.some.inj hs
        simp only [load, hreader, Option.toList, List.length_cons, List.length_nil]
        omega
      · simp at hs

/-- A reply that the reader has taken belongs to a request that is written, so a
reader without a waiting request waits for the writer alone. -/
theorem Ordered.settled (h : Ordered answer server s)
    (hrest : ∀ a, a.internal → Client.step answer s a = none) :
    s.delivered = s.answered ∧ s.delivered.map Prod.fst = s.sent.filter Request.busy := by
  have hwaiting := congrArg List.length h.waiting
  have hreplies := congrArg List.length h.replies
  simp only [List.length_append, List.length_map] at hwaiting hreplies
  have htake := hrest .take rfl
  have hwrite := hrest .write rfl
  have hqueue := hrest .queue rfl
  have hserve := hrest .serve rfl
  have hreceive := hrest .receive rfl
  have hfinish := hrest .finish rfl
  have hreader : s.reader = none := by
    cases hr : s.reader with
    | none => rfl
    | some r =>
        have hw : s.waitingReqs = [] := by
          cases hw : s.waitingReqs with
          | nil => rfl
          | cons req rest => simp [Client.step, hr, hw] at hfinish
        have hidle : s.writer.unqueued = [] := by
          cases hq : s.writer with
          | idle => rfl
          | writing req => rfl
          | queueing req => simp [Client.step, hq, hw, chanSize] at hqueue
        simp only [hr, hw, hidle, Option.toList, List.length_cons, List.length_nil] at hwaiting hreplies
        omega
  have hbuf : s.receiveBuf = [] := by
    cases hb : s.receiveBuf with
    | nil => rfl
    | cons r rest => simp [Client.step, hreader, hb] at hreceive
  have hsend : s.sendBuf = [] := by
    cases hb : s.sendBuf with
    | nil => rfl
    | cons req rest => simp [Client.step, hb, hbuf, chanSize] at hserve
  simp only [hreader, hbuf, hsend, Option.toList, List.length_nil] at hwaiting hreplies
  have hidle : s.writer = .idle := by
    cases hw : s.writer with
    | idle => rfl
    | writing req => simp [Client.step, hw, hsend, chanSize] at hwrite
    | queueing req =>
        simp only [hw, Writer.unqueued, List.length_cons, List.length_nil] at hwaiting
        omega
  have hpending : s.pendingReqs = [] := by
    cases hp : s.pendingReqs with
    | nil => rfl
    | cons req rest =>
        simp only [Client.step, hidle, hp] at htake
        split at htake <;> simp at htake
  have heq : s.delivered = s.answered := h.delivered_prefix.eq_of_length (by omega)
  refine ⟨heq, ?_⟩
  rw [h.sent, hsend, hidle, hpending, heq]
  simp [Writer.unwritten]

theorem createClient_ordered (server : S) :
    Ordered answer server (createClient server : State S ρ) := by
  refine ⟨rfl, rfl, rfl, rfl, ?_, ?_, rfl⟩
  · intro id r hr
    simp [createClient] at hr
  · intro req r hr
    simp [createClient] at hr

theorem run_matched {as : List Action} (h : run answer (createClient server) as = some s) :
    Matched answer server s := by
  have ho := (createClient_ordered server).run h
  exact ⟨ho.returned, ho.delivered_prefix, by rw [ho.serve], ho.unique,
    fun a t ha hs => load_lt ha hs, ho.settled⟩

/-- The first call has timed out when its reply comes, and the second one gets its
own, which arrives before its request waits. -/
theorem run_matched_timeOut :
    ∃ s, run (fun n args => (args, n + 1)) (createClient 0)
      [.send [[1]], .take, .write, .timeOut ⟨0, [[1]]⟩, .serve, .receive, .queue, .finish,
        .send [[2]], .take, .write, .serve, .receive, .queue, .finish, .ret ⟨1, [[2]]⟩] = some s ∧
      Matched (fun n args => (args, n + 1)) 0 s ∧ (⟨1, [[2]]⟩, some [[2]]) ∈ s.returned := by
  refine ⟨_, rfl, @run_matched _ _ _ _ _ [.send [[1]], .take, .write, .timeOut ⟨0, [[1]]⟩, .serve,
    .receive, .queue, .finish, .send [[2]], .take, .write, .serve, .receive, .queue, .finish,
    .ret ⟨1, [[2]]⟩] rfl, ?_⟩
  simp

end Traitor.Client
