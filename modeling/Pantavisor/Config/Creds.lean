/-
Pantavisor.Config.Creds — the credentials file: `pv_config_load_creds_from_file` and
`pv_config_save_creds_to_file`.

The loader sets twenty-four fields and the other one writes eighteen, some of them only
where there is a proxy. `reloaded` is what the loader makes of a saved configuration, field
by field (`load_save`), and `Survives` the condition under which that is the configuration
itself.
-/
import Pantavisor.Config.ConfigParser

namespace Pantavisor.Config

open Pantavisor.Lib

/-- The fields of `struct pantavisor_config` that `pv_config_load_creds_from_file` sets. -/
@[ext]
structure CredsConfig where
  type : Option CStr
  host : Option CStr
  port : Int
  hostProxy : Option CStr
  portProxy : Int
  noproxyconnect : Int
  id : Option CStr
  prn : Option CStr
  secret : Option CStr
  tpmKey : Option CStr
  tpmCert : Option CStr
  autotok : Option CStr
  keepFactory : Bool
  interval : Int
  networkTimeout : Int
  commitDelay : Int
  logdir : Option CStr
  logmax : Int
  loglevel : Int
  logsize : Int
  push : Bool
  capture : Bool
  loggers : Bool
  libthttpLoglevel : Int
  deriving DecidableEq

/-- `pv_config_load_creds_from_file`, without an override on the command line. -/
def pvConfigLoadCredsFromFile (content : CStr) : Option CredsConfig :=
  (loadKeyValueFile content).map fun configList =>
    { type := configGetValueString configList (str "creds.type") (some (str "builtin"))
      host := configGetValueString configList (str "creds.host") (some (str "192.168.53.1"))
      port := configGetValueInt configList (str "creds.port") 12365
      hostProxy := configGetValueString configList (str "creds.proxy.host") none
      portProxy := configGetValueInt configList (str "creds.proxy.port") 3218
      noproxyconnect := configGetValueInt configList (str "creds.proxy.noproxyconnect") 0
      id := configGetValueString configList (str "creds.id") none
      prn := configGetValueString configList (str "creds.prn") none
      secret := configGetValueString configList (str "creds.secret") none
      tpmKey := configGetValueString configList (str "creds.tpm.key") none
      tpmCert := configGetValueString configList (str "creds.tpm.cert") none
      autotok := configGetValueString configList (str "factory.autotok") none
      keepFactory := configGetValueBool configList (str "updater.keep_factory") false
      interval := configGetValueInt configList (str "updater.interval") 60
      networkTimeout := configGetValueInt configList (str "updater.network_timeout") (2 * 60)
      commitDelay := configGetValueInt configList (str "updater.commit.delay") (3 * 60)
      logdir := configGetValueString configList (str "log.dir") (some (str "/storage/logs/"))
      logmax := configGetValueInt configList (str "log.maxsize") (2 ^ 21)
      loglevel := configGetValueInt configList (str "log.level") 0
      logsize := wrapInt (configGetValueLogsize configList (str "log.buf_nitems") 128 * 1024)
      push := configGetValueBool configList (str "log.push") true
      capture := configGetValueBool configList (str "log.capture") true
      loggers := configGetValueBool configList (str "log.loggers") true
      libthttpLoglevel := configGetValueInt configList (str "libthttp.log.level") 3 }

/-- What `pv_config_save_creds_to_file` writes, in its order: a value that is `NULL` is not
written, and neither are the last two of the proxy without its host. -/
def credsTuples (config : CredsConfig) : List (CStr × Option CStr) :=
  [(str "creds.type", config.type),
    (str "creds.host", config.host),
    (str "creds.port", some (intText config.port)),
    (str "creds.proxy.host", config.hostProxy),
    (str "creds.proxy.port", config.hostProxy.map fun _ => intText config.portProxy),
    (str "creds.proxy.noproxyconnect",
      config.hostProxy.map fun _ => intText config.noproxyconnect),
    (str "creds.id", config.id),
    (str "creds.prn", config.prn),
    (str "creds.secret", config.secret),
    (str "creds.tpm.key", config.tpmKey),
    (str "creds.tpm.cert", config.tpmCert),
    (str "updater.interval", some (intText config.interval)),
    (str "updater.network_timeout", some (intText config.networkTimeout)),
    (str "updater.commit.delay", some (intText config.commitDelay)),
    (str "updater.keep_factory", some (intText (if config.keepFactory then 1 else 0))),
    (str "log.level", some (intText config.loglevel)),
    (str "log.buf_nitems", some (intText (config.logsize.tdiv 1024))),
    (str "libthttp.log.level", some (intText config.libthttpLoglevel))]

/-- `pv_config_save_creds_to_file`: what is in the file then. -/
def pvConfigSaveCredsToFile (config : CredsConfig) : CStr :=
  (credsTuples config).flatMap fun tuple => writeConfigTupleString tuple.1 tuple.2

/-- What a registration sets. -/
def CredsConfig.registered (config : CredsConfig) (id prn secret : Option CStr) : CredsConfig :=
  { config with id := id, prn := prn, secret := secret }

/-! ## What is loaded of a saved file -/

/-- The keys of `credsTuples`. -/
def credsKeys : List CStr :=
  [str "creds.type", str "creds.host", str "creds.port", str "creds.proxy.host",
    str "creds.proxy.port", str "creds.proxy.noproxyconnect", str "creds.id", str "creds.prn",
    str "creds.secret", str "creds.tpm.key", str "creds.tpm.cert", str "updater.interval",
    str "updater.network_timeout", str "updater.commit.delay", str "updater.keep_factory",
    str "log.level", str "log.buf_nitems", str "libthttp.log.level"]

theorem credsTuples_keys (config : CredsConfig) :
    (credsTuples config).map Prod.fst = credsKeys := rfl

/-- The keys that are loaded and not written. -/
def unsavedKeys : List CStr :=
  [str "factory.autotok", str "log.dir", str "log.maxsize", str "log.push", str "log.capture",
    str "log.loggers"]

theorem credsKeys_spec : credsKeys.Nodup ∧ (∀ key ∈ credsKeys, KeyOk key) ∧
    ∀ key ∈ unsavedKeys, key ∉ credsKeys := by
  decide +kernel

/-- The tuples that are written. -/
def written (tuples : List (CStr × Option CStr)) : List (CStr × CStr) :=
  tuples.filterMap fun tuple => tuple.2.map fun v => (tuple.1, v)

theorem flatMap_written (tuples : List (CStr × Option CStr)) :
    (tuples.flatMap fun tuple => writeConfigTupleString tuple.1 tuple.2)
      = (written tuples).flatMap tupleLine := by
  induction tuples with
  | nil => rfl
  | cons tuple tuples ih =>
    obtain ⟨key, value⟩ := tuple
    rw [List.flatMap_cons, ih]
    cases value <;> rfl

theorem mem_written {tuples : List (CStr × Option CStr)} {item : CStr × CStr} :
    item ∈ written tuples ↔ (item.1, some item.2) ∈ tuples := by
  constructor
  · intro h
    obtain ⟨⟨key, value⟩, htuple, heq⟩ := List.mem_filterMap.mp h
    obtain ⟨v, rfl, rfl⟩ := Option.map_eq_some_iff.mp heq
    exact htuple
  · exact fun h => List.mem_filterMap.mpr ⟨_, h, rfl⟩

theorem written_keys_sublist (tuples : List (CStr × Option CStr)) :
    ((written tuples).map Prod.fst).Sublist (tuples.map Prod.fst) := by
  induction tuples with
  | nil => exact List.Sublist.slnil
  | cons tuple tuples ih =>
    obtain ⟨key, value⟩ := tuple
    cases value with
    | none => exact ih.cons _
    | some v => exact ih.cons_cons _

/-- A key has the value that was written for it. -/
theorem denote_written {tuples : List (CStr × Option CStr)} (hnodup : (tuples.map Prod.fst).Nodup)
    {key : CStr} {value : Option CStr} (h : (key, value) ∈ tuples) :
    denote (written tuples) key = value := by
  cases value with
  | some v =>
    exact denote_of_mem ((written_keys_sublist tuples).nodup hnodup) (mem_written.mpr h)
  | none =>
    rw [denote_eq_none_iff]
    intro hkey
    obtain ⟨item, hitem, rfl⟩ := List.mem_map.mp hkey
    have heq := List.inj_on_of_nodup_map hnodup h (mem_written.mp hitem) rfl
    cases (Prod.mk.inj heq).2

theorem denote_unwritten (config : CredsConfig) {key : CStr} (h : key ∈ unsavedKeys) :
    configGetValue (written (credsTuples config)) key = none := by
  rw [configGetValue, denote_eq_none_iff]
  exact fun hkey => credsKeys_spec.2.2 _ h ((written_keys_sublist _).subset hkey)

theorem configGetValue_written {config : CredsConfig} {i : Nat} {key : CStr} {value : Option CStr}
    (h : (credsTuples config)[i]? = some (key, value)) :
    configGetValue (written (credsTuples config)) key = value :=
  denote_written (by rw [credsTuples_keys]; exact credsKeys_spec.1) (List.mem_of_getElem? h)

section Fields

variable {config : CredsConfig} {i : Nat} {key : CStr} {n : Int}

theorem atoi_written (n : Int) : atoi (intText n) = n := by
  simpa using @atoi_intText n [] (by simp)

theorem getString_written {value : Option CStr}
    (h : (credsTuples config)[i]? = some (key, value)) (defaultValue : Option CStr) :
    configGetValueString (written (credsTuples config)) key defaultValue
      = (value.or defaultValue).filter (· ≠ []) := by
  rw [configGetValueString, configGetValue_written h]

theorem getInt_written (h : (credsTuples config)[i]? = some (key, some (intText n)))
    (defaultValue : Int) :
    configGetValueInt (written (credsTuples config)) key defaultValue = wrapInt n := by
  rw [configGetValueInt, configGetValue_written h, Option.map_some, Option.getD_some,
    atoi_written]

theorem getInt_proxy
    (h : (credsTuples config)[i]? = some (key, config.hostProxy.map fun _ => intText n))
    (defaultValue : Int) :
    configGetValueInt (written (credsTuples config)) key defaultValue
      = if config.hostProxy.isSome then wrapInt n else defaultValue := by
  rw [configGetValueInt, configGetValue_written h]
  cases config.hostProxy with
  | none => rfl
  | some host => exact congrArg wrapInt (atoi_written n)

theorem getBool_written {value : Bool}
    (h : (credsTuples config)[i]? = some (key, some (intText (if value then 1 else 0))))
    (defaultValue : Bool) :
    configGetValueBool (written (credsTuples config)) key defaultValue = value := by
  rw [configGetValueBool, configGetValue_written h, Option.map_some, Option.getD_some,
    atoi_written]
  cases value <;> decide

theorem getLogsize_written (h : (credsTuples config)[i]? = some (key, some (intText n)))
    (defaultValue : Int) :
    configGetValueLogsize (written (credsTuples config)) key defaultValue
      = if 1024 ≤ wrapInt n then defaultValue else wrapInt n := by
  rw [configGetValueLogsize, getInt_written h]

variable (config)

theorem getString_unwritten (h : key ∈ unsavedKeys) (defaultValue : Option CStr) :
    configGetValueString (written (credsTuples config)) key defaultValue
      = defaultValue.filter (· ≠ []) := by
  rw [configGetValueString, denote_unwritten config h, Option.none_or]

theorem getInt_unwritten (h : key ∈ unsavedKeys) (defaultValue : Int) :
    configGetValueInt (written (credsTuples config)) key defaultValue = defaultValue := by
  rw [configGetValueInt, denote_unwritten config h]
  rfl

theorem getBool_unwritten (h : key ∈ unsavedKeys) (defaultValue : Bool) :
    configGetValueBool (written (credsTuples config)) key defaultValue = defaultValue := by
  rw [configGetValueBool, denote_unwritten config h]
  rfl

end Fields

/-- The strings that are written. -/
def savedStrings (config : CredsConfig) : List (Option CStr) :=
  [config.type, config.host, config.hostProxy, config.id, config.prn, config.secret,
    config.tpmKey, config.tpmCert]

theorem oneLine_intText (n : Int) : OneLine (intText n) := by
  refine ⟨fun h => ?_, intText_noNul n⟩
  cases n with
  | ofNat n => exact absurd (isDigit_of_mem_digitText h) (by decide)
  | negSucc n =>
    rcases List.mem_cons.mp h with h | h
    · exact absurd h (by decide)
    · exact absurd (isDigit_of_mem_digitText h) (by decide)

theorem oneLine_written {config : CredsConfig}
    (h : ∀ s ∈ savedStrings config, ∀ v ∈ s, OneLine v) :
    ∀ item ∈ written (credsTuples config), OneLine item.2 := by
  intro item hitem
  obtain ⟨key, v⟩ := item
  have hmem : (key, some v) ∈ credsTuples config := mem_written.mp hitem
  have hvalue : some v ∈ savedStrings config ∨ ∃ n, v = intText n := by
    simp only [credsTuples, List.mem_cons, Prod.mk.injEq, List.not_mem_nil, or_false] at hmem
    simp only [savedStrings, List.mem_cons, List.not_mem_nil, or_false]
    have hproxy : ∀ n : Int, some v = config.hostProxy.map (fun _ => intText n) →
        ∃ n, v = intText n := by
      intro n hn
      obtain ⟨-, -, heq⟩ := Option.map_eq_some_iff.mp hn.symm
      exact ⟨n, heq.symm⟩
    rcases hmem with h | h | h | h | h | h | h | h | h | h | h | h | h | h | h | h | h | h
    all_goals
      first
        | exact .inr ⟨_, Option.some.inj h.2⟩
        | exact .inr (hproxy _ h.2)
        | exact .inl (by simp only [h.2, true_or, or_true])
  rcases hvalue with hvalue | ⟨n, rfl⟩
  · exact h _ hvalue v rfl
  · exact oneLine_intText n

/-- What is loaded of a saved configuration. -/
def reloaded (config : CredsConfig) : CredsConfig :=
  { config with
    type := (config.type.or (some (str "builtin"))).filter (· ≠ [])
    host := (config.host.or (some (str "192.168.53.1"))).filter (· ≠ [])
    port := wrapInt config.port
    hostProxy := config.hostProxy.filter (· ≠ [])
    portProxy := if config.hostProxy.isSome then wrapInt config.portProxy else 3218
    noproxyconnect := if config.hostProxy.isSome then wrapInt config.noproxyconnect else 0
    id := config.id.filter (· ≠ [])
    prn := config.prn.filter (· ≠ [])
    secret := config.secret.filter (· ≠ [])
    tpmKey := config.tpmKey.filter (· ≠ [])
    tpmCert := config.tpmCert.filter (· ≠ [])
    autotok := none
    interval := wrapInt config.interval
    networkTimeout := wrapInt config.networkTimeout
    commitDelay := wrapInt config.commitDelay
    logdir := some (str "/storage/logs/")
    logmax := 2 ^ 21
    loglevel := wrapInt config.loglevel
    logsize :=
      let value := wrapInt (config.logsize.tdiv 1024)
      wrapInt ((if 1024 ≤ value then 128 else value) * 1024)
    push := true
    capture := true
    loggers := true
    libthttpLoglevel := wrapInt config.libthttpLoglevel }

/-- **A saved configuration is loaded** like that, if its strings are on one line. -/
theorem load_save {config : CredsConfig} (h : ∀ s ∈ savedStrings config, ∀ v ∈ s, OneLine v) :
    pvConfigLoadCredsFromFile (pvConfigSaveCredsToFile config) = some (reloaded config) := by
  have hload : loadKeyValueFile (pvConfigSaveCredsToFile config)
      = some (written (credsTuples config)) := by
    have hsublist := written_keys_sublist (credsTuples config)
    rw [credsTuples_keys] at hsublist
    rw [pvConfigSaveCredsToFile, flatMap_written]
    refine loadKeyValueFile_tuples ?_ (hsublist.nodup credsKeys_spec.1) ?_ (oneLine_written h)
    · have hport : (credsTuples config)[2]? = some (str "creds.port", some (intText config.port)) :=
        rfl
      have hmem : (str "creds.port", intText config.port) ∈ written (credsTuples config) :=
        mem_written.mpr (List.mem_of_getElem? hport)
      exact List.ne_nil_of_mem hmem
    · exact fun item hitem =>
        credsKeys_spec.2.1 _ (hsublist.subset (List.mem_map_of_mem hitem))
  rw [pvConfigLoadCredsFromFile, hload, Option.map_some]
  congr 1
  rw [getString_written (i := 0) rfl, getString_written (i := 1) rfl, getInt_written (i := 2) rfl,
    getString_written (i := 3) rfl, getInt_proxy (i := 4) rfl, getInt_proxy (i := 5) rfl,
    getString_written (i := 6) rfl, getString_written (i := 7) rfl, getString_written (i := 8) rfl,
    getString_written (i := 9) rfl, getString_written (i := 10) rfl,
    getString_unwritten config (by simp [unsavedKeys]), getBool_written (i := 14) rfl,
    getInt_written (i := 11) rfl, getInt_written (i := 12) rfl, getInt_written (i := 13) rfl,
    getString_unwritten config (by simp [unsavedKeys]), getInt_unwritten config (by simp [unsavedKeys]),
    getInt_written (i := 15) rfl, getLogsize_written (i := 16) rfl,
    getBool_unwritten config (by simp [unsavedKeys]), getBool_unwritten config (by simp [unsavedKeys]),
    getBool_unwritten config (by simp [unsavedKeys]), getInt_written (i := 17) rfl]
  simp only [Option.or_none]
  rfl

/-! ## What a loaded configuration is like -/

/-- The range of an `int`. -/
def IntRange (n : Int) : Prop := -(2 ^ 31) ≤ n ∧ n < 2 ^ 31

instance (n : Int) : Decidable (IntRange n) := inferInstanceAs (Decidable (_ ∧ _))

/-- A string that can be loaded. -/
def StringOk (s : Option CStr) : Prop := ∀ v ∈ s, OneLine v ∧ v ≠ []

/-- What holds of every configuration that is loaded. -/
structure Loaded (config : CredsConfig) : Prop where
  type : StringOk config.type
  host : StringOk config.host
  port : IntRange config.port
  hostProxy : StringOk config.hostProxy
  portProxy : IntRange config.portProxy
  noproxyconnect : IntRange config.noproxyconnect
  tpmKey : StringOk config.tpmKey
  tpmCert : StringOk config.tpmCert
  interval : IntRange config.interval
  networkTimeout : IntRange config.networkTimeout
  commitDelay : IntRange config.commitDelay
  loglevel : IntRange config.loglevel
  logsize : IntRange config.logsize
  /-- the size is one in KiB -/
  logsizeKib : config.logsize.tdiv 1024 * 1024 = config.logsize
  libthttpLoglevel : IntRange config.libthttpLoglevel

theorem getInt_range (list : List (CStr × CStr)) (key : CStr) {defaultValue : Int}
    (h : IntRange defaultValue) : IntRange (configGetValueInt list key defaultValue) := by
  rw [configGetValueInt]
  cases configGetValue list key with
  | none => exact h
  | some item => exact wrapInt_range _

/-- What wraps around is still a number of KiB. -/
theorem wrapInt_kib (n : Int) : (wrapInt (n * 1024)).tdiv 1024 * 1024 = wrapInt (n * 1024) := by
  have hdvd : (1024 : Int) ∣ wrapInt (n * 1024) := by
    rw [wrapInt, Int.bmod_def]
    omega
  exact Int.tdiv_mul_cancel hdvd

theorem loaded_of_load {content : CStr} {config : CredsConfig}
    (h : pvConfigLoadCredsFromFile content = some config) :
    Loaded config ∧ StringOk config.id ∧ StringOk config.prn ∧ StringOk config.secret := by
  obtain ⟨list, hlist, rfl⟩ := Option.map_eq_some_iff.mp h
  have hstring : ∀ key (d : Option CStr), (∀ v ∈ d, OneLine v) →
      StringOk (configGetValueString list key d) :=
    fun key d hd v hv => getValueString_ok hlist hd hv
  have hnone : ∀ v ∈ (none : Option CStr), OneLine v := fun v hv => by cases hv
  have hsome : ∀ s : CStr, OneLine s → ∀ v ∈ some s, OneLine v := fun s hs v hv =>
    Option.some.inj hv ▸ hs
  have hint : ∀ key d, IntRange d → IntRange (configGetValueInt list key d) :=
    fun key d => getInt_range list key
  exact ⟨{
    type := hstring _ _ (hsome _ (by decide +kernel))
    host := hstring _ _ (hsome _ (by decide +kernel))
    port := hint _ _ (by decide)
    hostProxy := hstring _ _ hnone
    portProxy := hint _ _ (by decide)
    noproxyconnect := hint _ _ (by decide)
    tpmKey := hstring _ _ hnone
    tpmCert := hstring _ _ hnone
    interval := hint _ _ (by decide)
    networkTimeout := hint _ _ (by decide)
    commitDelay := hint _ _ (by decide)
    loglevel := hint _ _ (by decide)
    logsize := wrapInt_range _
    logsizeKib := wrapInt_kib _
    libthttpLoglevel := hint _ _ (by decide) },
    hstring _ _ hnone, hstring _ _ hnone, hstring _ _ hnone⟩

/-! ## What survives -/

/-- The condition under which a configuration is the same after it was saved and loaded. -/
structure Survives (config : CredsConfig) : Prop where
  type : config.type.isSome
  host : config.host.isSome
  proxy : config.hostProxy = none → config.portProxy = 3218 ∧ config.noproxyconnect = 0
  /-- what a registration can set to anything -/
  registered : ∀ s ∈ [config.id, config.prn, config.secret], ∀ v ∈ s, v ≠ [] ∧ newline ∉ v
  autotok : config.autotok = none
  logdir : config.logdir = some (str "/storage/logs/")
  logmax : config.logmax = 2 ^ 21
  push : config.push = true
  capture : config.capture = true
  loggers : config.loggers = true
  /-- sizes from 1 MiB on are only loaded where the number of KiB wraps around -/
  logsize : config.logsize < 2 ^ 20

instance (config : CredsConfig) : Decidable (Survives config) :=
  decidable_of_iff (config.type.isSome ∧ config.host.isSome ∧
      (config.hostProxy = none → config.portProxy = 3218 ∧ config.noproxyconnect = 0) ∧
      (∀ s ∈ [config.id, config.prn, config.secret], ∀ v ∈ s, v ≠ [] ∧ newline ∉ v) ∧
      config.autotok = none ∧ config.logdir = some (str "/storage/logs/") ∧
      config.logmax = 2 ^ 21 ∧ config.push = true ∧ config.capture = true ∧
      config.loggers = true ∧ config.logsize < 2 ^ 20)
    ⟨fun ⟨h₁, h₂, h₃, h₄, h₅, h₆, h₇, h₈, h₉, h₁₀, h₁₁⟩ =>
      ⟨h₁, h₂, h₃, h₄, h₅, h₆, h₇, h₈, h₉, h₁₀, h₁₁⟩,
      fun h => ⟨h.type, h.host, h.proxy, h.registered, h.autotok, h.logdir, h.logmax, h.push,
        h.capture, h.loggers, h.logsize⟩⟩

theorem filter_of_ok {s : Option CStr} (h : ∀ v ∈ s, v ≠ []) : s.filter (· ≠ []) = s := by
  cases s with
  | none => rfl
  | some v => exact Option.filter_some_pos (decide_eq_true (h v rfl))

theorem filter_default_iff {s : Option CStr} (hs : ∀ v ∈ s, v ≠ []) {d : CStr} (hd : d ≠ []) :
    (s.or (some d)).filter (· ≠ []) = s ↔ s.isSome := by
  cases s with
  | none => simp [hd]
  | some v => simp [hs v rfl]

theorem reloaded_logsize {n : Int} (hrange : IntRange n) (hkib : n.tdiv 1024 * 1024 = n) :
    wrapInt ((if 1024 ≤ wrapInt (n.tdiv 1024) then 128 else wrapInt (n.tdiv 1024)) * 1024) = n ↔
      n < 2 ^ 20 := by
  generalize n.tdiv 1024 = k at hkib
  obtain ⟨hlow, hhigh⟩ := hrange
  have hk : wrapInt k = k := wrapInt_eq (by omega)
  rw [hk]
  split
  · rw [wrapInt_eq (by omega)]
    omega
  · rw [hkib, wrapInt_eq ⟨hlow, hhigh⟩]
    omega

theorem ne_nil_of_filter {s : Option CStr} (h : s.filter (· ≠ []) = s) : ∀ v ∈ s, v ≠ [] := by
  intro v hv
  rw [← h] at hv
  exact of_decide_eq_true (Option.mem_filter_iff.mp hv).2

/-- Field by field, a configuration is loaded again. -/
theorem reloaded_eq_iff {config : CredsConfig} (h : Loaded config)
    (hline : ∀ s ∈ [config.id, config.prn, config.secret], ∀ v ∈ s, newline ∉ v) :
    reloaded config = config ↔ Survives config := by
  have hbuiltin : str "builtin" ≠ [] := by decide +kernel
  have haddress : str "192.168.53.1" ≠ [] := by decide +kernel
  have htype := filter_default_iff (fun v hv => (h.type v hv).2) hbuiltin
  have hhost := filter_default_iff (fun v hv => (h.host v hv).2) haddress
  have hsize := reloaded_logsize h.logsize h.logsizeKib
  constructor
  · intro heq
    have hproxy := congrArg CredsConfig.portProxy heq
    have hconnect := congrArg CredsConfig.noproxyconnect heq
    have hid := ne_nil_of_filter (congrArg CredsConfig.id heq)
    have hprn := ne_nil_of_filter (congrArg CredsConfig.prn heq)
    have hsecret := ne_nil_of_filter (congrArg CredsConfig.secret heq)
    exact {
      type := htype.mp (congrArg CredsConfig.type heq)
      host := hhost.mp (congrArg CredsConfig.host heq)
      proxy := by
        intro hnone
        simp only [reloaded, hnone, Option.isSome_none, Bool.false_eq_true, if_false]
          at hproxy hconnect
        exact ⟨hproxy.symm, hconnect.symm⟩
      registered := by
        intro s hs v hv
        refine ⟨?_, hline s hs v hv⟩
        simp only [List.mem_cons, List.not_mem_nil, or_false] at hs
        rcases hs with rfl | rfl | rfl
        · exact hid v hv
        · exact hprn v hv
        · exact hsecret v hv
      autotok := (congrArg CredsConfig.autotok heq).symm
      logdir := (congrArg CredsConfig.logdir heq).symm
      logmax := (congrArg CredsConfig.logmax heq).symm
      push := (congrArg CredsConfig.push heq).symm
      capture := (congrArg CredsConfig.capture heq).symm
      loggers := (congrArg CredsConfig.loggers heq).symm
      logsize := hsize.mp (congrArg CredsConfig.logsize heq) }
  · intro hs
    have hregistered : ∀ s ∈ [config.id, config.prn, config.secret], s.filter (· ≠ []) = s :=
      fun s hmem => filter_of_ok fun v hv => (hs.registered s hmem v hv).1
    have hport : (if config.hostProxy.isSome then wrapInt config.portProxy else 3218)
        = config.portProxy := by
      split
      · exact wrapInt_eq h.portProxy
      · exact (hs.proxy (Option.not_isSome_iff_eq_none.mp ‹¬ _›)).1.symm
    have hconnect : (if config.hostProxy.isSome then wrapInt config.noproxyconnect else 0)
        = config.noproxyconnect := by
      split
      · exact wrapInt_eq h.noproxyconnect
      · exact (hs.proxy (Option.not_isSome_iff_eq_none.mp ‹¬ _›)).2.symm
    exact CredsConfig.ext (htype.mpr hs.type) (hhost.mpr hs.host) (wrapInt_eq h.port)
      (filter_of_ok fun v hv => (h.hostProxy v hv).2) hport hconnect
      (hregistered config.id (by simp)) (hregistered config.prn (by simp))
      (hregistered config.secret (by simp)) (filter_of_ok fun v hv => (h.tpmKey v hv).2)
      (filter_of_ok fun v hv => (h.tpmCert v hv).2) hs.autotok.symm rfl (wrapInt_eq h.interval)
      (wrapInt_eq h.networkTimeout) (wrapInt_eq h.commitDelay) hs.logdir.symm hs.logmax.symm
      (wrapInt_eq h.loglevel) (hsize.mpr hs.logsize) hs.push.symm hs.capture.symm
      hs.loggers.symm (wrapInt_eq h.libthttpLoglevel)

/-- **A configuration is the same after it was saved and loaded**, whatever a registration set,
exactly under that condition. -/
theorem creds_survive_iff {content : CStr} {config : CredsConfig}
    (hload : pvConfigLoadCredsFromFile content = some config) {id prn secret : Option CStr}
    (hnul : ∀ s ∈ [id, prn, secret], ∀ v ∈ s, NulFree v) :
    pvConfigLoadCredsFromFile (pvConfigSaveCredsToFile (config.registered id prn secret))
        = some (config.registered id prn secret) ↔
      Survives (config.registered id prn secret) := by
  obtain ⟨hloaded, -⟩ := loaded_of_load hload
  have hloaded' : Loaded (config.registered id prn secret) := { hloaded with }
  have hlines : (∀ s ∈ [id, prn, secret], ∀ v ∈ s, newline ∉ v) →
      ∀ s ∈ savedStrings (config.registered id prn secret), ∀ v ∈ s, OneLine v := by
    intro hline s hs v hv
    simp only [savedStrings, CredsConfig.registered, List.mem_cons, List.not_mem_nil,
      or_false] at hs
    rcases hs with h | h | h | h | h | h | h | h
    · exact (hloaded.type v (h ▸ hv)).1
    · exact (hloaded.host v (h ▸ hv)).1
    · exact (hloaded.hostProxy v (h ▸ hv)).1
    · exact ⟨hline id (by simp) v (h ▸ hv), hnul id (by simp) v (h ▸ hv)⟩
    · exact ⟨hline prn (by simp) v (h ▸ hv), hnul prn (by simp) v (h ▸ hv)⟩
    · exact ⟨hline secret (by simp) v (h ▸ hv), hnul secret (by simp) v (h ▸ hv)⟩
    · exact (hloaded.tpmKey v (h ▸ hv)).1
    · exact (hloaded.tpmCert v (h ▸ hv)).1
  constructor
  · intro heq
    -- what was loaded again has each of its strings on one line
    obtain ⟨-, hid, hprn, hsecret⟩ := loaded_of_load heq
    have hline : ∀ s ∈ [id, prn, secret], ∀ v ∈ s, newline ∉ v := by
      intro s hs v hv
      simp only [List.mem_cons, List.not_mem_nil, or_false] at hs
      rcases hs with rfl | rfl | rfl
      · exact (hid v hv).1.1
      · exact (hprn v hv).1.1
      · exact (hsecret v hv).1.1
    rw [load_save (hlines hline)] at heq
    exact (reloaded_eq_iff hloaded' hline).mp (Option.some.inj heq)
  · intro hs
    have hline : ∀ s ∈ [id, prn, secret], ∀ v ∈ s, newline ∉ v :=
      fun s hmem v hv => (hs.registered s hmem v hv).2
    rw [load_save (hlines hline), (reloaded_eq_iff hloaded' hline).mpr hs]

/-- A file with settings of the log. -/
def logConfig : CStr := str "creds.host=api.pantahub.com\nlog.push=0\n"

/-- The setting of the log is not saved. -/
theorem log_push_lost :
    ∃ config, pvConfigLoadCredsFromFile logConfig = some config ∧
      pvConfigLoadCredsFromFile (pvConfigSaveCredsToFile config) ≠ some config :=
  ⟨(pvConfigLoadCredsFromFile logConfig).get (by decide +kernel), Option.some_get _ |>.symm,
    by decide +kernel⟩

/-- A file with a proxy, and none of the settings that are not saved. -/
def proxyConfig : CStr :=
  str "creds.host=api.pantahub.com\ncreds.proxy.host=proxy\ncreds.proxy.port=3128\n"

/-- With a new id and secret, the configuration is the same after it was saved and loaded. -/
theorem proxy_survives :
    ∃ config, pvConfigLoadCredsFromFile proxyConfig = some config ∧
      pvConfigLoadCredsFromFile (pvConfigSaveCredsToFile
        (config.registered (some (str "5f1")) none (some (str "s3")))) =
        some (config.registered (some (str "5f1")) none (some (str "s3"))) := by
  have hload : pvConfigLoadCredsFromFile proxyConfig
      = some ((pvConfigLoadCredsFromFile proxyConfig).get (by decide +kernel)) :=
    (Option.some_get _).symm
  exact ⟨_, hload, (creds_survive_iff hload (by decide +kernel)).mpr (by decide +kernel)⟩

end Pantavisor.Config
