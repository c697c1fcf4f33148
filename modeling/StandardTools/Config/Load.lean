import StandardTools.Core.ValueObjects
import StandardTools.Lib.Except
import StandardTools.Lib.Layers

/-!
# Loading the configuration (`config/config.cpp`)

The defaults are overridden by the TOML files, in their order, and these by the
environment. What toml++ answers about a file is a parameter; `std::stoi` and the
classification of characters are those of the C locale.
-/

namespace StandardTools.Configuration
open StandardTools.Core StandardTools.Lib

structure PolygonConfig where
  apiKey : String := ""

structure Config where
  httpPort : Int32 := 8080
  grpcPort : Int32 := 50051
  logLevel : String := "info"
  databaseUrl : String := ""
  cacheDir : String := ""
  auditDir : String := ""
  authEnabled : Bool := true
  apiKey : String := ""
  polygon : PolygonConfig := {}

inductive ConfigError where
  | toml (path msg : String)
  | invalidArgument
  | outOfRange
  | boolean (value : String)
  deriving DecidableEq, Repr

/-- The exceptions of `std::stoi` say no more than its name. -/
def ConfigError.what : ConfigError → String
  | .toml path msg => "failed to parse " ++ path ++ ": " ++ msg
  | .invalidArgument => "stoi"
  | .outOfRange => "stoi"
  | .boolean value => "invalid boolean value: " ++ value

/-! ### Reading values -/

def parseBool (v : String) : Except ConfigError Bool :=
  let lower := toLower (trim v)
  if lower = "1" ∨ lower = "true" ∨ lower = "yes" ∨ lower = "on" then .ok true
  else if lower = "0" ∨ lower = "false" ∨ lower = "no" ∨ lower = "off" then .ok false
  else .error (.boolean v)

def splitSign : List Char → Bool × List Char
  | '-' :: rest => (true, rest)
  | '+' :: rest => (false, rest)
  | rest => (false, rest)

def decimal (digits : List Char) : ℕ := digits.foldl (fun n c => 10 * n + (c.toNat - 48)) 0

/-- `std::stoi`: white space, a sign, digits, and whatever follows them. -/
def stoi (s : String) : Except ConfigError Int32 :=
  let (negative, rest) := splitSign (s.toList.dropWhile isSpace)
  let digits := rest.takeWhile Char.isDigit
  if digits = [] then .error .invalidArgument
  else
    let value : ℤ := if negative then -(decimal digits : ℤ) else decimal digits
    if -2 ^ 31 ≤ value ∧ value < 2 ^ 31 then .ok (Int32.ofInt value) else .error .outOfRange

/-! ### TOML files -/

/-- `value<int64_t>()`, `value<std::string>()` and `value<bool>()` of a key, and
`value<std::string>()` of a key in a table. -/
structure Toml where
  integer : String → Option Int64
  text : String → Option String
  boolean : String → Option Bool
  tableText : String → String → Option String

namespace Toml
variable (tbl : Toml)

/-- A port is cast to `int`. -/
def port (key : String) : Option Int32 := (tbl.integer key).map Int64.toInt32

end Toml

def applyToml (cfg : Config) (tbl : Toml) : Config where
  httpPort := (tbl.port "http_port").getD cfg.httpPort
  grpcPort := (tbl.port "grpc_port").getD cfg.grpcPort
  logLevel := (tbl.text "log_level").getD cfg.logLevel
  databaseUrl := (tbl.text "database_url").getD cfg.databaseUrl
  cacheDir := (tbl.text "cache_dir").getD cfg.cacheDir
  auditDir := (tbl.text "audit_dir").getD cfg.auditDir
  authEnabled := (tbl.boolean "auth_enabled").getD cfg.authEnabled
  apiKey := (tbl.text "api_key").getD cfg.apiKey
  polygon := ⟨(tbl.tableText "polygon" "api_key").getD cfg.polygon.apiKey⟩

/-- `toml::parse_file`, with the text of a `toml::parse_error`. -/
abbrev ParseFile := String → Except String Toml

def parseFile (parse : ParseFile) (path : String) : Except ConfigError Toml :=
  (parse path).mapError (.toml path)

/-! ### The environment -/

abbrev Environment := String → Option String

/-- A field of the configuration, to be read and to be assigned. -/
structure Field (α : Type) where
  get : Config → α
  set : α → Config → Config
  set_get : ∀ cfg, set (get cfg) cfg = cfg

namespace Field

def httpPort : Field Int32 := ⟨(·.httpPort), fun v cfg => { cfg with httpPort := v }, fun _ => rfl⟩
def grpcPort : Field Int32 := ⟨(·.grpcPort), fun v cfg => { cfg with grpcPort := v }, fun _ => rfl⟩
def logLevel : Field String := ⟨(·.logLevel), fun v cfg => { cfg with logLevel := v }, fun _ => rfl⟩
def databaseUrl : Field String :=
  ⟨(·.databaseUrl), fun v cfg => { cfg with databaseUrl := v }, fun _ => rfl⟩
def cacheDir : Field String := ⟨(·.cacheDir), fun v cfg => { cfg with cacheDir := v }, fun _ => rfl⟩
def auditDir : Field String := ⟨(·.auditDir), fun v cfg => { cfg with auditDir := v }, fun _ => rfl⟩
def authEnabled : Field Bool :=
  ⟨(·.authEnabled), fun v cfg => { cfg with authEnabled := v }, fun _ => rfl⟩
def apiKey : Field String := ⟨(·.apiKey), fun v cfg => { cfg with apiKey := v }, fun _ => rfl⟩
def polygonApiKey : Field String :=
  ⟨(·.polygon.apiKey), fun v cfg => { cfg with polygon := ⟨v⟩ }, fun _ => rfl⟩

end Field

structure EnvMapping where
  key : String
  apply : String → Config → Except ConfigError Config

def textMapping (key : String) (field : Field String) : EnvMapping :=
  ⟨key, fun v cfg => .ok (field.set v cfg)⟩

def parsedMapping {α : Type} (key : String) (read : String → Except ConfigError α)
    (field : Field α) : EnvMapping :=
  ⟨key, fun v cfg => (read v).map fun a => field.set a cfg⟩

def mappings : List EnvMapping :=
  [parsedMapping "SQT_HTTP_PORT" stoi .httpPort,
    parsedMapping "SQT_GRPC_PORT" stoi .grpcPort,
    textMapping "SQT_LOG_LEVEL" .logLevel,
    textMapping "SQT_DATABASE_URL" .databaseUrl,
    textMapping "SQT_CACHE_DIR" .cacheDir,
    textMapping "SQT_AUDIT_DIR" .auditDir,
    parsedMapping "SQT_AUTH_ENABLED" parseBool .authEnabled,
    textMapping "SQT_API_KEY" .apiKey,
    textMapping "SQT_POLYGON__API_KEY" .polygonApiKey]

def applyMapping (env : Environment) (cfg : Config) (mapping : EnvMapping) :
    Except ConfigError Config :=
  match env mapping.key with
  | none => .ok cfg
  | some value => mapping.apply value cfg

def applyEnv (env : Environment) (cfg : Config) : Except ConfigError Config :=
  mappings.foldlM (applyMapping env) cfg

/-! ### Loading -/

def normalLogLevel (level : String) : String :=
  if trim (toLower level) = "" then "info" else trim (toLower level)

def load (parse : ParseFile) (env : Environment) (paths : List String) :
    Except ConfigError Config := do
  let cfg ← paths.foldlM (fun cfg path => (parseFile parse path).map (applyToml cfg)) {}
  let cfg ← applyEnv env cfg
  return { cfg with logLevel := normalLogLevel cfg.logLevel }

/-! ### What a variable contributes -/

/-- A variable that is read as something other than a string. -/
def readVariable {α : Type} (read : String → Except ConfigError α) :
    Option String → Except ConfigError (Option α)
  | none => .ok none
  | some value => (read value).map some

theorem applyMapping_text (env : Environment) (cfg : Config) (key : String)
    (field : Field String) :
    applyMapping env cfg (textMapping key field) =
      .ok (field.set ((env key).getD (field.get cfg)) cfg) := by
  unfold applyMapping textMapping
  cases env key with
  | none => exact congrArg Except.ok (field.set_get cfg).symm
  | some value => rfl

theorem applyMapping_parsed {α : Type} (env : Environment) (cfg : Config) (key : String)
    (read : String → Except ConfigError α) (field : Field α) :
    applyMapping env cfg (parsedMapping key read field) =
      (readVariable read (env key)).map fun setting =>
        field.set (setting.getD (field.get cfg)) cfg := by
  unfold applyMapping parsedMapping readVariable
  cases env key with
  | none => exact congrArg Except.ok (field.set_get cfg).symm
  | some value =>
    show (read value).map _ = ((read value).map some).map _
    cases read value with
    | error e => rfl
    | ok a => rfl

/-- The environment laid over a configuration, once its ports and its flag are read. -/
def overridden (env : Environment) (http grpc : Option Int32) (auth : Option Bool)
    (cfg : Config) : Config where
  httpPort := http.getD cfg.httpPort
  grpcPort := grpc.getD cfg.grpcPort
  logLevel := (env "SQT_LOG_LEVEL").getD cfg.logLevel
  databaseUrl := (env "SQT_DATABASE_URL").getD cfg.databaseUrl
  cacheDir := (env "SQT_CACHE_DIR").getD cfg.cacheDir
  auditDir := (env "SQT_AUDIT_DIR").getD cfg.auditDir
  authEnabled := auth.getD cfg.authEnabled
  apiKey := (env "SQT_API_KEY").getD cfg.apiKey
  polygon := ⟨(env "SQT_POLYGON__API_KEY").getD cfg.polygon.apiKey⟩

theorem applyEnv_eq_ok {env : Environment} {cfg cfg' : Config} :
    applyEnv env cfg = .ok cfg' ↔ ∃ http grpc auth,
      readVariable stoi (env "SQT_HTTP_PORT") = .ok http ∧
        readVariable stoi (env "SQT_GRPC_PORT") = .ok grpc ∧
        readVariable parseBool (env "SQT_AUTH_ENABLED") = .ok auth ∧
        cfg' = overridden env http grpc auth cfg := by
  unfold applyEnv mappings
  simp only [List.foldlM_cons, List.foldlM_nil, applyMapping_text, applyMapping_parsed,
    bind_eq_ok, map_eq_ok]
  constructor
  · rintro ⟨_, ⟨http, hhttp, rfl⟩, _, ⟨grpc, hgrpc, rfl⟩, _, hlevel, _, hurl, _, hcache, _, haudit, _,
      ⟨auth, hauth, rfl⟩, _, hkey, _, hpolygon, hcfg⟩
    refine ⟨http, grpc, auth, hhttp, hgrpc, hauth, ?_⟩
    cases hlevel
    cases hurl
    cases hcache
    cases haudit
    cases hkey
    cases hpolygon
    cases hcfg
    rfl
  · rintro ⟨http, grpc, auth, hhttp, hgrpc, hauth, rfl⟩
    exact ⟨_, ⟨http, hhttp, rfl⟩, _, ⟨grpc, hgrpc, rfl⟩, _, rfl, _, rfl, _, rfl, _, rfl, _,
      ⟨auth, hauth, rfl⟩, _, rfl, _, rfl, rfl⟩

/-! ### The level of the log -/

theorem mem_trim {s : String} {c : Char} (h : c ∈ (trim s).toList) : c ∈ s.toList := by
  rw [trim, String.toList_ofList] at h
  exact (List.dropWhile_sublist _).subset ((List.rdropWhile_prefix _ _).sublist.subset h)

theorem toLower_twice (c : Char) : c.toLower.toLower = c.toLower := by
  by_cases h : c.val ≥ 'A'.val ∧ c.val ≤ 'Z'.val
  · have hval : c.toLower.val = c.val + 32 := congrArg Char.val (dif_pos h)
    have hlow : (65 : UInt32) ≤ c.val := h.1
    have hhigh : c.val ≤ (90 : UInt32) := h.2
    have hnot : ¬(c.toLower.val ≥ 'A'.val ∧ c.toLower.val ≤ 'Z'.val) := by
      show ¬((65 : UInt32) ≤ c.toLower.val ∧ c.toLower.val ≤ (90 : UInt32))
      rw [hval]
      grind [UInt32.toNat_add]
    exact dif_neg hnot
  · have hsame : c.toLower = c := dif_neg h
    rw [hsame, hsame]

theorem toLower_eq_self {s : String} (h : ∀ c ∈ s.toList, c.toLower = c) : toLower s = s := by
  rw [toLower, List.map_congr_left h, List.map_id', String.ofList_toList]

theorem toLower_trim_toLower (s : String) : toLower (trim (toLower s)) = trim (toLower s) := by
  refine toLower_eq_self fun c hc => ?_
  have hmem := mem_trim hc
  rw [toLower, String.toList_ofList] at hmem
  obtain ⟨d, -, rfl⟩ := List.mem_map.mp hmem
  exact toLower_twice d

/-- The level is in the form which the loader gives it. -/
theorem normalLogLevel_normalLogLevel (level : String) :
    normalLogLevel (normalLogLevel level) = normalLogLevel level := by
  by_cases h : trim (toLower level) = ""
  · rw [normalLogLevel, normalLogLevel, if_pos h]
    decide
  · have hfixed : trim (toLower (trim (toLower level))) = trim (toLower level) := by
      rw [toLower_trim_toLower, trim_trim]
    have hlevel : normalLogLevel level = trim (toLower level) := if_neg h
    rw [hlevel, normalLogLevel, hfixed, if_neg h]

/-! ### The order of precedence -/

/-- Every setting comes from its variable, else from the last file that has it,
else from the defaults; the level of the log is brought into its form. -/
def resolved (env : Environment) (tables : List Toml) (http grpc : Option Int32)
    (auth : Option Bool) : Config where
  httpPort := lastSet 8080 (tables.map (·.port "http_port") ++ [http])
  grpcPort := lastSet 50051 (tables.map (·.port "grpc_port") ++ [grpc])
  logLevel := normalLogLevel
    (lastSet "info" (tables.map (·.text "log_level") ++ [env "SQT_LOG_LEVEL"]))
  databaseUrl := lastSet "" (tables.map (·.text "database_url") ++ [env "SQT_DATABASE_URL"])
  cacheDir := lastSet "" (tables.map (·.text "cache_dir") ++ [env "SQT_CACHE_DIR"])
  auditDir := lastSet "" (tables.map (·.text "audit_dir") ++ [env "SQT_AUDIT_DIR"])
  authEnabled := lastSet true (tables.map (·.boolean "auth_enabled") ++ [auth])
  apiKey := lastSet "" (tables.map (·.text "api_key") ++ [env "SQT_API_KEY"])
  polygon := ⟨lastSet "" (tables.map (·.tableText "polygon" "api_key") ++
    [env "SQT_POLYGON__API_KEY"])⟩

theorem overridden_foldl (env : Environment) (tables : List Toml) (http grpc : Option Int32)
    (auth : Option Bool) :
    ({ overridden env http grpc auth (tables.foldl applyToml {}) with
      logLevel := normalLogLevel
        (overridden env http grpc auth (tables.foldl applyToml {})).logLevel } : Config) =
      resolved env tables http grpc auth := by
  have hfield {α : Type} (get : Config → α) (source : Toml → Option α)
      (h : ∀ cfg tbl, get (applyToml cfg tbl) = (source tbl).getD (get cfg)) :=
    foldl_lastSet get source h {} tables
  simp only [resolved, overridden, lastSet_concat,
    hfield Config.httpPort (·.port "http_port") fun _ _ => rfl,
    hfield Config.grpcPort (·.port "grpc_port") fun _ _ => rfl,
    hfield Config.logLevel (·.text "log_level") fun _ _ => rfl,
    hfield Config.databaseUrl (·.text "database_url") fun _ _ => rfl,
    hfield Config.cacheDir (·.text "cache_dir") fun _ _ => rfl,
    hfield Config.auditDir (·.text "audit_dir") fun _ _ => rfl,
    hfield Config.authEnabled (·.boolean "auth_enabled") fun _ _ => rfl,
    hfield Config.apiKey (·.text "api_key") fun _ _ => rfl,
    hfield (·.polygon.apiKey) (·.tableText "polygon" "api_key") fun _ _ => rfl]

/-- A configuration is loaded exactly when every file and the three variables that
are not strings can be read, and then it is the resolved one. -/
theorem load_eq_ok_iff (parse : ParseFile) (env : Environment) (paths : List String)
    (cfg : Config) :
    load parse env paths = .ok cfg ↔ ∃ tables http grpc auth,
      paths.mapM (parseFile parse) = .ok tables ∧
        readVariable stoi (env "SQT_HTTP_PORT") = .ok http ∧
        readVariable stoi (env "SQT_GRPC_PORT") = .ok grpc ∧
        readVariable parseBool (env "SQT_AUTH_ENABLED") = .ok auth ∧
        cfg = resolved env tables http grpc auth := by
  unfold load
  simp only [bind_eq_ok, foldlM_layers_eq_ok, applyEnv_eq_ok]
  constructor
  · rintro ⟨_, ⟨tables, htables, rfl⟩, _, ⟨http, grpc, auth, hhttp, hgrpc, hauth, rfl⟩, hcfg⟩
    refine ⟨tables, http, grpc, auth, htables, hhttp, hgrpc, hauth, ?_⟩
    rw [← overridden_foldl]
    exact (Except.ok.inj hcfg).symm
  · rintro ⟨tables, http, grpc, auth, htables, hhttp, hgrpc, hauth, rfl⟩
    refine ⟨_, ⟨tables, htables, rfl⟩, _, ⟨http, grpc, auth, hhttp, hgrpc, hauth, rfl⟩, ?_⟩
    rw [← overridden_foldl]
    rfl

end StandardTools.Configuration
