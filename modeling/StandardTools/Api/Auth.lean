import StandardTools.Api.Concurrency

/-!
# Middleware (`api/auth.hpp`)

Every request passes `ApiKeyAuth` and then `PayloadLimitMiddleware`. One that
either of them answers never reaches its handler. Header values and bodies are
strings of bytes.
-/

namespace StandardTools.Api
open StandardTools.Core StandardTools.Audit StandardTools.Lib

abbrev Bytes := List UInt8

structure AuthConfig where
  enabled : Bool
  apiKey : Bytes

def maxBodySize : ℕ := 16 * 1024 * 1024

/-- Every byte is looked at, also behind the first difference. -/
def constantTimeEqual (a b : Bytes) : Bool :=
  if a.length ≠ b.length then false
  else (a.zip b).foldl (fun diff bytes => diff ||| (bytes.1 ^^^ bytes.2)) 0 = 0

def isAuthorized (cfg : AuthConfig) (url : String) (presentedKey : Bytes) : Bool :=
  if !cfg.enabled then true
  else if url = "/health" then true
  else if cfg.apiKey.isEmpty then false
  else constantTimeEqual presentedKey cfg.apiKey

/-- A request as it arrives: the value of its `X-API-Key` header, which is empty
without the header, and its body, whose text is `inv.body`. -/
structure HttpRequest where
  transport : Transport
  apiKey : Bytes
  body : Bytes
  inv : Invocation

def Transport.url : Transport → String
  | .rest => "/api/v1/agent/dispatch"
  | .a2a => "/a2a/tasks"
  | .mcp => "/mcp/tools/call"

namespace Server
variable {Text : Type} (server : Server Text)

def unauthorized : Except Thrown (Response Text) :=
  server.jsonResponse 401 (.object [("code", .integer 401), ("error", .string "unauthorized")])

def tooLarge : Except Thrown (Response Text) :=
  server.jsonResponse 413 (.object [("code", .integer 413),
    ("error", .string "request body too large"), ("max_bytes", .integer maxBodySize)])

/-- The answer of the middleware, if it does not let the request through. -/
def beforeHandle (cfg : AuthConfig) (request : HttpRequest) :
    Option (Except Thrown (Response Text)) :=
  if !isAuthorized cfg request.transport.url request.apiKey then some server.unauthorized
  else if maxBodySize < request.body.length then some server.tooLarge
  else none

/-- The steps of a request to the application: the middleware belongs to the first one. -/
def appAdvance (cfg : AuthConfig) (request : HttpRequest) :
    Phase Text → Trace → Phase Text × Trace
  | .received, s =>
    match server.beforeHandle cfg request with
    | some refusal => (.finished refusal, s)
    | none => server.advance request.transport request.inv .received s
  | phase, s => server.advance request.transport request.inv phase s

end Server

/-! ### Who is let in -/

/-- The difference of two strings of one length is collected bit by bit. -/
theorem collected_eq_zero_iff (pairs : List (UInt8 × UInt8)) (diff : UInt8) :
    pairs.foldl (fun diff bytes => diff ||| (bytes.1 ^^^ bytes.2)) diff = 0 ↔
      diff = 0 ∧ ∀ bytes ∈ pairs, bytes.1 = bytes.2 := by
  induction pairs generalizing diff with
  | nil => simp
  | cons bytes rest ih =>
    rw [List.foldl_cons, ih, UInt8.or_eq_zero_iff, UInt8.xor_eq_zero_iff, List.forall_mem_cons,
      and_assoc]

theorem constantTimeEqual_iff (a b : Bytes) : constantTimeEqual a b = true ↔ a = b := by
  unfold constantTimeEqual
  by_cases hlength : a.length = b.length
  · rw [if_neg (not_not_intro hlength), decide_eq_true_iff, collected_eq_zero_iff,
      and_iff_right rfl]
    induction a generalizing b with
    | nil =>
      obtain rfl : b = [] := List.length_eq_zero_iff.mp hlength.symm
      simp
    | cons x xs ih =>
      cases b with
      | nil => cases hlength
      | cons y ys =>
        rw [List.zip_cons_cons, List.forall_mem_cons, ih ys (Nat.succ.inj hlength),
          List.cons.injEq]
  · rw [if_pos hlength]
    refine iff_of_false (by decide) ?_
    rintro rfl
    exact hlength rfl

theorem isAuthorized_iff (cfg : AuthConfig) (url : String) (presentedKey : Bytes) :
    isAuthorized cfg url presentedKey = true ↔
      cfg.enabled = true → url = "/health" ∨ cfg.apiKey ≠ [] ∧ presentedKey = cfg.apiKey := by
  unfold isAuthorized
  cases henabled : cfg.enabled with
  | false => simp
  | true =>
    by_cases hurl : url = "/health"
    · simp [hurl]
    · cases hkey : cfg.apiKey with
      | nil => simp [hurl]
      | cons x xs => simp [hurl, constantTimeEqual_iff]

/-- Nothing but the configured key is accepted, and no empty one. -/
def KeyAccepted (cfg : AuthConfig) (request : HttpRequest) : Prop :=
  cfg.enabled = true → cfg.apiKey ≠ [] ∧ request.apiKey = cfg.apiKey

instance (cfg : AuthConfig) (request : HttpRequest) : Decidable (KeyAccepted cfg request) :=
  inferInstanceAs (Decidable (_ → _))

/-- The request gets to its handler. -/
def Admitted (cfg : AuthConfig) (request : HttpRequest) : Prop :=
  KeyAccepted cfg request ∧ request.body.length ≤ maxBodySize

instance (cfg : AuthConfig) (request : HttpRequest) : Decidable (Admitted cfg request) :=
  inferInstanceAs (Decidable (_ ∧ _))

namespace Server
variable {Text : Type} {server : Server Text} {cfg : AuthConfig} {request : HttpRequest}

theorem isAuthorized_tool (cfg : AuthConfig) (request : HttpRequest) :
    isAuthorized cfg request.transport.url request.apiKey = true ↔ KeyAccepted cfg request := by
  have hurl : request.transport.url ≠ "/health" := by
    cases request.transport with
    | rest | a2a | mcp =>
      rw [Transport.url]
      decide
  rw [isAuthorized_iff]
  simp only [hurl, false_or, KeyAccepted]

theorem beforeHandle_unauthorized (hkey : ¬KeyAccepted cfg request) :
    server.beforeHandle cfg request = some server.unauthorized := by
  have hrefused : isAuthorized cfg request.transport.url request.apiKey = false := by
    rw [← Bool.not_eq_true, isAuthorized_tool]
    exact hkey
  simp [beforeHandle, hrefused]

/-- The length of the body is looked at behind the key. -/
theorem beforeHandle_authorized (hkey : KeyAccepted cfg request) :
    server.beforeHandle cfg request =
      if maxBodySize < request.body.length then some server.tooLarge else none := by
  simp [beforeHandle, (isAuthorized_tool cfg request).mpr hkey]

theorem appAdvance_admitted (h : Admitted cfg request) (phase : Phase Text) (s : Trace) :
    server.appAdvance cfg request phase s =
      server.advance request.transport request.inv phase s := by
  have hnone : server.beforeHandle cfg request = none := by
    rw [beforeHandle_authorized h.1, if_neg (Nat.not_lt.mpr h.2)]
  cases phase with
  | received => simp only [appAdvance, hnone]
  | returned | caught | finished => rfl

/-! ### All requests -/

variable {W : Type} [DecidableEq W]

def appEach (server : Server Text) (cfg : AuthConfig) (requests : W → HttpRequest) (w : W) :
    Phase Text → Trace → Phase Text × Trace :=
  server.appAdvance cfg (requests w)

/-- Nothing has come of the request but, perhaps, an answer of the middleware. -/
def TurnedAway (server : Server Text) (cfg : AuthConfig) (request : HttpRequest)
    (phase : Phase Text) : Prop :=
  phase = .received ∨
    ∃ answer, server.beforeHandle cfg request = some answer ∧ phase = .finished answer

theorem turnedAway_step (h : ¬Admitted cfg request) {phase : Phase Text}
    (hphase : TurnedAway server cfg request phase) (s : Trace) :
    (server.appAdvance cfg request phase s).2 = s ∧
      (server.appAdvance cfg request phase s).1.rank ≤ phase.rank - 1 ∧
      TurnedAway server cfg request (server.appAdvance cfg request phase s).1 := by
  obtain ⟨answer, hanswer⟩ : ∃ answer, server.beforeHandle cfg request = some answer := by
    by_cases hkey : KeyAccepted cfg request
    · have hsize : maxBodySize < request.body.length :=
        Nat.lt_of_not_le fun hsize => h ⟨hkey, hsize⟩
      exact ⟨_, (beforeHandle_authorized hkey).trans (if_pos hsize)⟩
    · exact ⟨_, beforeHandle_unauthorized hkey⟩
  rcases hphase with rfl | ⟨answer', hanswer', rfl⟩
  · simp only [appAdvance, hanswer]
    exact ⟨trivial, Nat.zero_le _, Or.inr ⟨answer, hanswer, rfl⟩⟩
  · exact ⟨rfl, Nat.zero_le _, Or.inr ⟨answer', hanswer', rfl⟩⟩

/-- A request that the middleware answers is finished with its first step. -/
theorem finished_of_refused (requests : W → HttpRequest) {c : Threads W Trace (Phase Text)} {w : W}
    (hreceived : c.own w = .received) {answer : Except Thrown (Response Text)}
    (hrefused : server.beforeHandle cfg (requests w) = some answer) {schedule : List W}
    (hw : w ∈ schedule) :
    (Threads.run (server.appEach cfg requests) c schedule).own w = .finished answer := by
  have hadmitted : ¬Admitted cfg (requests w) := by
    intro h
    rw [beforeHandle_authorized h.1, if_neg (Nat.not_lt.mpr h.2)] at hrefused
    cases hrefused
  have hmove : ∀ phase s, server.TurnedAway cfg (requests w) phase →
      (server.appEach cfg requests w phase s).1.rank ≤ phase.rank - 1 ∧
        server.TurnedAway cfg (requests w) (server.appEach cfg requests w phase s).1 :=
    fun phase s hphase => (turnedAway_step hadmitted hphase s).2
  obtain ⟨hrank, hstill⟩ := Threads.run_rank (c := c) w hmove (Or.inl hreceived) schedule
  have hcount := List.count_pos_iff.mpr hw
  rcases hstill with hstill | ⟨answer', hanswer', hfinished⟩
  · rw [hstill, hreceived] at hrank
    have hlate : 3 ≤ 3 - schedule.count w := hrank
    omega
  · rw [hrefused] at hanswer'
    rw [hfinished, Option.some.inj hanswer']

theorem jsonResponse_of_ascii {Utf8 : String → Prop} (henc : server.Encoding Utf8) (status : Int)
    {body : Json} (hbody : body.AllStrings Utf8) :
    ∃ text, server.jsonResponse status body = .ok ⟨status, "application/json", text⟩ := by
  obtain ⟨text, htext⟩ := (henc.dump body).mpr hbody
  exact ⟨text, by rw [jsonResponse, htext]⟩

end Server

/-- The application serves the admitted requests as if the others had never been
sent; each of those is answered in its first step, with 401 if its key is not
accepted and else with 413. -/
theorem only_admitted_served {Text : Type} (server : Server Text) (Utf8 : String → Prop)
    (henc : server.Encoding Utf8) (cfg : AuthConfig) {W : Type}
    [DecidableEq W] (requests : W → HttpRequest) (log : Option (List DecisionRecord))
    (schedule : List W) :
    (Threads.run (server.appEach cfg requests) ⟨⟨log, []⟩, fun _ => .received⟩ schedule).shared =
      (Threads.run (server.serveEach fun w => ((requests w).transport, (requests w).inv))
        ⟨⟨log, []⟩, fun _ => .received⟩
        (schedule.filter fun w => Admitted cfg (requests w))).shared ∧
    (∀ w, Admitted cfg (requests w) →
      (Threads.run (server.appEach cfg requests) ⟨⟨log, []⟩, fun _ => .received⟩ schedule).own w =
        (Threads.run (server.serveEach fun w => ((requests w).transport, (requests w).inv))
          ⟨⟨log, []⟩, fun _ => .received⟩
          (schedule.filter fun w => Admitted cfg (requests w))).own w) ∧
    ∀ w ∈ schedule, ¬Admitted cfg (requests w) → ∃ text,
      (Threads.run (server.appEach cfg requests) ⟨⟨log, []⟩, fun _ => .received⟩ schedule).own w =
        .finished (.ok ⟨if KeyAccepted cfg (requests w) then 413 else 401, "application/json",
          text⟩) := by
  have hstart : ∀ w, decide (Admitted cfg (requests w)) = false →
      server.TurnedAway cfg (requests w) Phase.received := fun _ _ => Or.inl rfl
  obtain ⟨hshared, hadmitted, -⟩ := Threads.run_filter
    (c := ⟨⟨log, []⟩, fun _ => Phase.received⟩) (d := ⟨⟨log, []⟩, fun _ => Phase.received⟩)
    (fun w => decide (Admitted cfg (requests w)))
    (fun w phase s hw => Server.appAdvance_admitted (of_decide_eq_true hw) phase s)
    (fun w phase s hw hphase =>
      have hstep := Server.turnedAway_step (of_decide_eq_false hw) hphase s
      ⟨hstep.1, hstep.2.2⟩)
    rfl (fun _ _ => rfl) hstart schedule
  refine ⟨hshared, fun w hw => hadmitted w (decide_eq_true hw), fun w hw hrefused => ?_⟩
  have hkeys : ∀ s ∈ ["code", "error", "unauthorized", "request body too large", "max_bytes"],
      Utf8 s := henc.ascii_all (by decide +kernel)
  simp only [List.forall_mem_cons] at hkeys
  by_cases hkey : KeyAccepted cfg (requests w)
  · have hsize : maxBodySize < (requests w).body.length :=
      Nat.lt_of_not_le fun hsize => hrefused ⟨hkey, hsize⟩
    obtain ⟨text, htext⟩ : ∃ text, server.tooLarge = .ok ⟨413, "application/json", text⟩ :=
      Server.jsonResponse_of_ascii henc 413 (by simp [hkeys])
    refine ⟨text, ?_⟩
    rw [if_pos hkey, ← htext]
    exact Server.finished_of_refused requests rfl
      ((Server.beforeHandle_authorized hkey).trans (if_pos hsize)) hw
  · obtain ⟨text, htext⟩ : ∃ text, server.unauthorized = .ok ⟨401, "application/json", text⟩ :=
      Server.jsonResponse_of_ascii henc 401 (by simp [hkeys])
    refine ⟨text, ?_⟩
    rw [if_neg hkey, ← htext]
    exact Server.finished_of_refused requests rfl (Server.beforeHandle_unauthorized hkey) hw

/-- A request with the key and one without, in turns. -/
theorem only_admitted_served_two :
    ∃ text, (Threads.run ((sampleServer .memory).appEach ⟨true, [7]⟩ fun stranger : Bool =>
        ⟨.a2a, if stranger then [] else [7], [], sampleInvocation healthBody⟩)
      ⟨⟨some [], []⟩, fun _ => .received⟩ [false, true, false, false]).own true =
        .finished (.ok ⟨401, "application/json", text⟩) := by
  obtain ⟨-, -, hrefused⟩ := only_admitted_served (sampleServer .memory) (fun _ => True)
    (sampleServer_encoding .memory) ⟨true, [7]⟩
    (fun stranger : Bool =>
      ⟨.a2a, if stranger then [] else [7], [], sampleInvocation healthBody⟩)
    (some []) [false, true, false, false]
  exact hrefused true (by decide) (by decide)

end StandardTools.Api
