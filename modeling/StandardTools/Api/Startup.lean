import StandardTools.Api.Auth
import StandardTools.Config.Load

/-!
# Start of the server (`server/main.cpp:45-85`)

The server reads its configuration from the environment alone, opens the storage
and refuses to start when it would have to check a key that nobody has set.
-/

namespace StandardTools.Api
open StandardTools.Core StandardTools.Configuration StandardTools.Lib

/-- The bytes of a `std::string`. -/
def keyBytes (s : String) : Bytes := s.toUTF8.data.toList

/-- What is decided once the server has started. -/
structure Started where
  auth : AuthConfig
  storage : Storage
  httpPort : Int32
  grpcPort : Int32

/-- `connect` opens a pool on a database and migrates it; there is none in a build
without PostgreSQL. -/
def openStorage (connect : Option (String → Except String Unit)) (cfg : Config) :
    Except String Storage :=
  if cfg.databaseUrl ≠ "" then
    match connect with
    | some connect => (connect cfg.databaseUrl).map fun _ => Storage.postgres
    | none => .error "PostgreSQL support is not compiled in"
  else .ok Storage.memory

/-- `main` up to the registration of the routes; an error is the text it leaves on
`std::cerr` before it exits with 1. -/
def start (parse : ParseFile) (connect : Option (String → Except String Unit))
    (env : Environment) : Except String Started := do
  let cfg ← (load parse env []).mapError fun e => "failed to load config: " ++ e.what
  let storage ← (openStorage connect cfg).mapError fun e => "failed to setup storage: " ++ e
  if cfg.authEnabled ∧ cfg.apiKey = "" then
    .error "SQT_AUTH_ENABLED is true but SQT_API_KEY is not set; refusing to start"
  else
    return ⟨⟨cfg.authEnabled, keyBytes cfg.apiKey⟩, storage, cfg.httpPort, cfg.grpcPort⟩

/-! ### Who is let in by the environment -/

theorem keyBytes_eq_nil_iff (s : String) : keyBytes s = [] ↔ s = "" := by
  have hsize : (keyBytes s).length = s.utf8ByteSize := rfl
  rw [← List.length_eq_zero_iff, hsize, String.utf8ByteSize_eq_zero_iff]

theorem start_eq_ok_iff (parse : ParseFile) (connect : Option (String → Except String Unit))
    (env : Environment) (started : Started) :
    start parse connect env = .ok started ↔ ∃ http grpc auth storage,
      readVariable stoi (env "SQT_HTTP_PORT") = .ok http ∧
        readVariable stoi (env "SQT_GRPC_PORT") = .ok grpc ∧
        readVariable parseBool (env "SQT_AUTH_ENABLED") = .ok auth ∧
        openStorage connect (resolved env [] http grpc auth) = .ok storage ∧
        (auth.getD true = true → (env "SQT_API_KEY").getD "" ≠ "") ∧
        started = ⟨⟨auth.getD true, keyBytes ((env "SQT_API_KEY").getD "")⟩, storage,
          http.getD 8080, grpc.getD 50051⟩ := by
  unfold start
  simp only [bind_eq_ok, mapError_eq_ok, load_eq_ok_iff, ite_error_eq_ok]
  constructor
  · rintro ⟨_, ⟨tables, http, grpc, auth, htables, hhttp, hgrpc, hauth, rfl⟩, storage, hstorage,
      hkey, hstarted⟩
    cases htables
    refine ⟨http, grpc, auth, storage, hhttp, hgrpc, hauth, hstorage, ?_, ?_⟩
    · exact fun henabled hempty => hkey ⟨henabled, hempty⟩
    · exact (Except.ok.inj hstarted).symm
  · rintro ⟨http, grpc, auth, storage, hhttp, hgrpc, hauth, hstorage, hkey, rfl⟩
    refine ⟨_, ⟨[], http, grpc, auth, rfl, hhttp, hgrpc, hauth, rfl⟩, storage, hstorage, ?_, rfl⟩
    rintro ⟨henabled, hempty⟩
    exact hkey henabled hempty

/-- The variable is there and says no. -/
def SwitchedOff (env : Environment) : Prop :=
  ∃ v, env "SQT_AUTH_ENABLED" = some v ∧ parseBool v = .ok false

theorem switchedOff_iff {env : Environment} {auth : Option Bool}
    (hauth : readVariable parseBool (env "SQT_AUTH_ENABLED") = .ok auth) :
    SwitchedOff env ↔ auth.getD true = false := by
  unfold SwitchedOff
  cases henv : env "SQT_AUTH_ENABLED" with
  | none =>
    rw [henv] at hauth
    cases hauth
    simp
  | some v =>
    rw [henv] at hauth
    have hread : (parseBool v).map some = .ok auth := hauth
    obtain ⟨b, hb, rfl⟩ := map_eq_ok.mp hread
    simp [hb]

/-- A server that has started lets in whoever presents the key of the environment,
which is not empty, and everybody else only where the check is switched off. -/
theorem started_admits_iff (parse : ParseFile) (connect : Option (String → Except String Unit))
    (env : Environment) (started : Started) (hstart : start parse connect env = .ok started)
    (request : HttpRequest) :
    Admitted started.auth request ↔
      (SwitchedOff env ∨ ∃ key, env "SQT_API_KEY" = some key ∧ key ≠ "" ∧
        request.apiKey = keyBytes key) ∧ request.body.length ≤ maxBodySize := by
  obtain ⟨http, grpc, auth, storage, -, -, hauth, -, hkey, rfl⟩ :=
    (start_eq_ok_iff parse connect env started).mp hstart
  unfold Admitted
  refine and_congr_left fun _ => ?_
  rw [switchedOff_iff hauth]
  show (auth.getD true = true → _) ↔ _
  cases henabled : auth.getD true with
  | false => simp
  | true =>
    have hset := hkey henabled
    cases henv : env "SQT_API_KEY" with
    | none =>
      rw [henv] at hset
      exact absurd rfl hset
    | some key =>
      rw [henv] at hset
      have hne : key ≠ "" := hset
      simp [keyBytes_eq_nil_iff, hne]

/-- An environment in which only the key is set. -/
def keyOnly : Environment := fun name => if name = "SQT_API_KEY" then some "secret" else none

theorem started_admits_key :
    start (fun _ => .error "no file") none keyOnly =
        .ok ⟨⟨true, keyBytes "secret"⟩, Storage.memory, 8080, 50051⟩ ∧
      Admitted ⟨true, keyBytes "secret"⟩
        ⟨.rest, keyBytes "secret", [], sampleInvocation healthBody⟩ := by
  have hstart : start (fun _ => .error "no file") none keyOnly =
      .ok ⟨⟨true, keyBytes "secret"⟩, Storage.memory, 8080, 50051⟩ :=
    (start_eq_ok_iff _ _ _ _).mpr
      ⟨none, none, none, Storage.memory, rfl, rfl, rfl, rfl, fun _ => by decide, rfl⟩
  refine ⟨hstart, (started_admits_iff _ none keyOnly _ hstart _).mpr ⟨Or.inr ?_, by decide⟩⟩
  exact ⟨"secret", rfl, by decide, rfl⟩

end StandardTools.Api
