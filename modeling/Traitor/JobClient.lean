import Traitor.Client
import Traitor.LocalDbServer

namespace Traitor.Client

variable {S ρ : Type} {answer : S → List Bytes → ρ × S} {server : S} {s t : State S ρ}

def calls (as : List Action) : List (List Bytes) :=
  as.filterMap fun
    | .send args => some args
    | _ => none

theorem length_calls_le (as : List Action) : (calls as).length ≤ as.length := List.length_filterMap_le _ _

theorem step_sent {a : Action} (h : step answer s a = some t) :
    t.sent.map Request.args = s.sent.map Request.args ++ calls [a] := by
  cases a with
  | send args =>
      simp only [step, Option.ite_none_right_eq_some] at h
      obtain ⟨-, h⟩ := h
      obtain rfl := Option.some.inj h
      simp [calls]
  | take =>
      simp only [step] at h
      split at h
      · split at h
        · obtain rfl := Option.some.inj h
          simp [calls]
        · obtain rfl := Option.some.inj h
          simp [calls]
      · simp at h
  | write =>
      simp only [step] at h
      split at h
      · simp only [Option.ite_none_right_eq_some] at h
        obtain rfl := Option.some.inj h.2
        simp [calls]
      · simp at h
  | queue =>
      simp only [step] at h
      split at h
      · simp only [Option.ite_none_right_eq_some] at h
        obtain rfl := Option.some.inj h.2
        simp [calls]
      · simp at h
  | serve =>
      simp only [step] at h
      split at h
      · simp at h
      · simp only [Option.ite_none_right_eq_some] at h
        obtain rfl := Option.some.inj h.2
        simp [calls]
  | receive =>
      simp only [step] at h
      split at h
      · obtain rfl := Option.some.inj h
        simp [calls]
      · simp at h
  | finish =>
      simp only [step] at h
      split at h
      · obtain rfl := Option.some.inj h
        simp [calls]
      · simp at h
  | timeOut req =>
      simp only [step, Option.ite_none_right_eq_some] at h
      obtain rfl := Option.some.inj h.2
      simp [calls]
  | ret req =>
      simp only [step, Option.ite_none_right_eq_some] at h
      obtain ⟨r, -, rfl⟩ := Option.map_eq_some_iff.mp h.2
      simp [calls]

theorem run_sent {as : List Action} (h : run answer s as = some t) :
    t.sent.map Request.args = s.sent.map Request.args ++ calls as := by
  induction as generalizing s with
  | nil =>
      obtain rfl := Option.some.inj h
      simp [calls]
  | cons a as ih =>
      obtain ⟨u, hu, hr⟩ := Option.bind_eq_some_iff.mp h
      have hcalls : calls ([a] ++ as) = calls [a] ++ calls as := List.filterMap_append
      rw [List.singleton_append] at hcalls
      rw [ih hr, step_sent hu, hcalls, List.append_assoc]

namespace Ordered

variable (h : Ordered answer server s) (hbusy : ∀ req ∈ s.sent, req.busy)

include h hbusy

/-- Where no call is dropped, the answered ones are the first that were sent. -/
theorem answered_first : s.answered.map Prod.fst <+: s.sent := by
  have hsent := h.sent
  rw [List.filter_eq_self.mpr hbusy, List.append_assoc, List.append_assoc] at hsent
  exact ⟨_, hsent.symm⟩

/-- A reply that a call returns stands where the call does among those that were sent. -/
theorem returned_at {req : Request} {r : ρ} (hr : (req, some r) ∈ s.returned) :
    (Client.serve answer server (s.answered.map fun a => a.1.args)).1[req.id]? = some r := by
  have hmem : (req, r) ∈ s.answered := h.delivered_prefix.subset (h.returned req r hr)
  obtain ⟨i, hi, hget⟩ := List.mem_iff_getElem.mp hmem
  have hfst : (s.answered.map Prod.fst)[i]? = some req := by simp [hi, hget]
  obtain ⟨rest, hrest⟩ := h.answered_first hbusy
  have hsent : s.sent[i]? = some req := by
    rw [← hrest, List.getElem?_append_left (by simpa using hi), hfst]
  have hid : req.id = i := by
    have hids := congrArg (·[i]?) h.ids
    obtain ⟨hlt, -⟩ := List.getElem?_eq_some_iff.mp hsent
    simp only [List.getElem?_map, hsent, Option.map_some, List.getElem?_range hlt, Option.some.injEq] at hids
    exact hids
  rw [h.serve, hid]
  simp [hi, hget]

end Ordered

end Traitor.Client

namespace Traitor.LocalDb

open Database (World Env)
open Codec Protocol Service Traitor.Parser

variable {σ : Type} [LinearOrder σ] [Inhabited σ] {env : Env σ} {lib : Library} {w : World σ} {db : Db}

/-- The server reads the bytes of a request and writes its answer, of which the client reads the
first payload. -/
def exchange (env : Env σ) (w : World σ) (args : List Bytes) : Option Payload × World σ :=
  let (sent, w) := handleServer (execServer env) (parseStream (encode args)) w
  ((parseStream sent).head?, w)

theorem exchange_answers {n : Nat} (h : Shows w db) (htame : db.Tame n) (hn : n < 2 ^ 32)
    (hlib : lib.members = env.choices.order) {r : Request} (hasks : r.Asks) (hsafe : Safe r.line) :
    (exchange env w r.line).1 = some (.reply (r.apply lib db).1) ∧
      Shows (exchange env w r.line).2 (r.apply lib db).2 := by
  obtain ⟨hintact, hreply, hshows⟩ := request_answers h htame hn hlib hasks hsafe
  have hparse : parseStream (encode r.line) = [r.line].map decoded ++ [.error .eof] := by
    have hone := parse0_encode (List.cons_ne_nil _ _) hsafe []
    rw [List.append_nil] at hone
    rw [parseStream, Request.line, hone, parse0_nil]
    rfl
  have hserver := @handleServer_decoded _ (execServer env) [r.line] .eof w (.inl rfl)
  rw [← hparse] at hserver
  rw [exchange, hserver]
  have hread := parse0_intact hintact []
  rw [List.append_nil] at hread
  refine ⟨?_, hshows⟩
  have hsent : parseStream ((execAll (execServer env) [r.line] w).1.flatMap answer) =
      .reply (received (Database.exec env (r.line.map some) w).1) :: parse0 .zero [] := by
    rw [← hread]
    simp [execAll, execServer, answer, parseStream]
  dsimp only
  rw [hsent, hreply]
  rfl

/-- Requests served one after another are answered as the client expects. -/
theorem serve_answers {requests : List Request} {n : Nat} (hasks : ∀ r ∈ requests, r.Asks)
    (hsafe : ∀ r ∈ requests, Safe r.line) (hlib : lib.members = env.choices.order) (h : Shows w db)
    (htame : db.Tame n) (hn : n + requests.length < 2 ^ 32) :
    (Client.serve (exchange env) w (requests.map Request.line)).1 =
        (applyAll lib requests db).1.map (fun reply => some (.reply reply)) ∧
      Shows (Client.serve (exchange env) w (requests.map Request.line)).2 (applyAll lib requests db).2 := by
  induction requests generalizing w db n with
  | nil => exact ⟨rfl, h⟩
  | cons r requests ih =>
      rw [List.length_cons] at hn
      obtain ⟨hreply, hshows⟩ := exchange_answers h htame (by omega) hlib (hasks r List.mem_cons_self)
        (hsafe r List.mem_cons_self)
      obtain ⟨hreplies, hfinal⟩ := ih (fun r' hr' => hasks r' (List.mem_cons_of_mem r hr'))
        (fun r' hr' => hsafe r' (List.mem_cons_of_mem r hr')) hshows
        (htame.apply (hsafe r List.mem_cons_self)) (by omega)
      exact ⟨congrArg₂ List.cons hreply hreplies, hfinal⟩

theorem applyAll_take (lib : Library) (requests : List Request) (db : Db) (n : Nat) :
    (applyAll lib (requests.take n) db).1 = (applyAll lib requests db).1.take n := by
  induction requests generalizing db n with
  | nil => simp [applyAll]
  | cons r requests ih =>
      cases n with
      | zero => rfl
      | succ n => exact congrArg (List.cons _) (ih _ n)

def Calls (as : List Client.Action) (requests : List Request) : Prop :=
  Client.calls as = requests.map Request.line ∧ (∀ r ∈ requests, r.Asks) ∧ ∀ r ∈ requests, Safe r.line

/-- However the calls, the loops of the client and the server are interleaved, whatever a call
returns is what the store answers to it after the calls that were sent before, and the database
holds what the store does after those that it has answered. -/
theorem calls_linearize (hlib : lib.members = env.choices.order) {as : List Client.Action}
    {requests : List Request} (hcalls : Calls as requests) (hlen : as.length < 2 ^ 32)
    {s : Client.State (World σ) (Option Payload)}
    (hrun : Client.run (exchange env) (Client.createClient .empty) as = some s) :
    (∀ req payload, (req, some payload) ∈ s.returned →
        ∃ reply, (applyAll lib requests fun _ => none).1[req.id]? = some reply ∧
          payload = some (.reply reply)) ∧
      Shows s.server (applyAll lib (requests.take s.answered.length) fun _ => none).2 := by
  obtain ⟨hlines, hasks, hsafe⟩ := hcalls
  have ho := (@Client.createClient_ordered _ _ (exchange env) World.empty).run hrun
  have hsent : s.sent.map Client.Request.args = requests.map Request.line := by
    rw [Client.run_sent hrun, hlines]
    rfl
  have hbusy : ∀ req ∈ s.sent, req.busy := by
    intro req hreq
    have hmem := hsent ▸ List.mem_map_of_mem (f := Client.Request.args) hreq
    obtain ⟨r, -, hr⟩ := List.mem_map.mp hmem
    simp [Client.Request.busy, ← hr, Request.line]
  generalize hserved : requests.take s.answered.length = served
  have hanswered : (s.answered.map fun a => a.1.args) = served.map Request.line := by
    have hprefix := List.prefix_iff_eq_take.mp (ho.answered_first hbusy)
    have hargs := congrArg (List.map Client.Request.args) hprefix
    rw [List.map_map, List.length_map, List.map_take, hsent, ← List.map_take, hserved] at hargs
    exact hargs
  have hsub : ∀ r ∈ served, r ∈ requests := fun r hr => List.mem_of_mem_take (hserved ▸ hr)
  have hfew : 0 + served.length < 2 ^ 32 := by
    have hcalled := Client.length_calls_le as
    have htake := congrArg List.length hserved
    rw [hlines, List.length_map] at hcalled
    rw [List.length_take] at htake
    omega
  obtain ⟨hreplies, hshows⟩ := serve_answers (fun r hr => hasks r (hsub r hr))
    (fun r hr => hsafe r (hsub r hr)) hlib shows_empty tame_empty hfew
  rw [← hanswered] at hreplies hshows
  constructor
  · intro req payload hreturned
    have hat := ho.returned_at hbusy hreturned
    rw [hreplies, List.getElem?_map, ← hserved, applyAll_take] at hat
    obtain ⟨reply, hreply, rfl⟩ := Option.map_eq_some_iff.mp hat
    rw [List.getElem?_take, Option.ite_none_right_eq_some] at hreply
    exact ⟨reply, hreply.2, rfl⟩
  · rw [ho.serve] at hshows
    exact hshows

def jobCalls : List Client.Action :=
  let sadd := (Request.sadd jobKeysSet (bytes "1")).line
  [.send sadd, .take, .write, .send (Request.smembers jobKeysSet).line, .serve, .receive, .queue, .finish,
    .ret ⟨0, sadd⟩]

theorem calls_jobCalls : Calls jobCalls jobRequests := by
  refine ⟨rfl, ?_, by decide +kernel⟩
  intro r hr
  rcases List.mem_pair.mp hr with rfl | rfl <;> exact trivial

/-- The first call returns while the second one still waits to be written. -/
theorem calls_linearize_jobCalls :
    ∃ s, Client.run (exchange (.plain 0)) (Client.createClient .empty) jobCalls = some s ∧
      (∀ req payload, (req, some payload) ∈ s.returned →
        ∃ reply, (applyAll (.alongside (.plain 0)) jobRequests fun _ => none).1[req.id]? = some reply ∧
          payload = some (.reply reply)) ∧
      Shows s.server
        (applyAll (.alongside (.plain 0)) (jobRequests.take s.answered.length) fun _ => none).2 :=
  ⟨_, rfl, calls_linearize rfl calls_jobCalls (by decide) (by rfl)⟩

end Traitor.LocalDb
