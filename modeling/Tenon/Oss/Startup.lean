import Tenon.Core.RuleFile
import Tenon.Oss.ClientCount
import Tenon.Oss.Config
import Tenon.Oss.SinkMetrics

/-!
# Startup — from the files to the running daemon

A start provisions the default files, opens its log, reads the configuration and the rules, builds the
engine, resolves and writes the client ids and only then opens the metrics endpoint, the sinks and the
adapter.  Any step may fail, which ends the start there and leaves the files as they are.
-/

open Tenon.Core Tenon.Coordinator Reasoning Reasoning.Transition

namespace Tenon.Oss

/-- What a start relies on outside of its own code. -/
structure Host where
  disk : OssDisk
  serde : Serde
  crates : Crates
  rdkafka : Rdkafka
  rumqttc : Rumqttc
  order : DispatchOrder
  -- `DescriptorPool::decode`
  decodeDescriptorSet : ByteArray → Except String DescriptorPool
  -- `rolling::daily` and the subscriber behind it, for a log directory
  setUpLogging : String → OssProgram Unit
  startMetricsServer : Except String Unit

/-- `Display` of the errors of a rule file. -/
def ruleErrorText : RuleError → String
  | .sqlParse text => "SQL parse error: " ++ text
  | .unsupportedSql => "unsupported SQL form"
  | .missingTopic => "missing topic filter in FROM"
  | .missingSchemaName => "protobuf rules require a schema name"
  | .unexpectedSchemaName => "json rules must not specify a protobuf schema"

def mqttErrorDebug : MqttError → String
  | .disabled => "Disabled"
  | .startFailed text => "StartFailed(" ++ text.quote ++ ")"

def defaultTopicCacheCapacity : Nat := 4096

/-- What a start has once the rules are loaded. -/
structure Prepared where
  config : OssConfig
  engine : RuleEngine

/-- What a start hands to the adapter, whose threads it waits for. -/
structure Launch (K : Rdkafka) where
  config : OssConfig
  engine : RuleEngine
  clientIds : List String
  evalQueueCapacity : Nat
  dispatcher : Dispatcher K
  adapter : System Startup StartAction

inductive Outcome (K : Rdkafka) where
  | usage (program : String)
  | version
  | started (launch : Launch K)

/-- The decoder that the payload section asks for. -/
inductive DecoderOf (H : Host) (files : Files Place ByteArray) (payload : PayloadConfig) :
    PayloadDecoder → Prop
  | json (hformat : payload.format ∈ ["json", "JSON"]) : DecoderOf H files payload .json
  | protobuf (hformat : payload.format ∈ ["protobuf", "Protobuf", "PROTOBUF"]) (path : String)
      (hpath : payload.protobufDescriptorSetPath = some path) (descriptorSet : ByteArray)
      (hthere : files (H.disk.resolve path) = some descriptorSet) (pool : DescriptorPool)
      (hpool : H.decodeDescriptorSet descriptorSet = .ok pool) :
      DecoderOf H files payload (.protobuf (some pool))

section Start

variable (H : Host) (env : Environment)

def buildRuleEngine (config : OssConfig) : OssProgram RuleEngine :=
  if config.payload.format ∈ ["json", "JSON"] then
    pure (.newWithCacheCapacity .json defaultTopicCacheCapacity)
  else if config.payload.format ∈ ["protobuf", "Protobuf", "PROTOBUF"] then
    match config.payload.protobufDescriptorSetPath with
    | none => throw "payload.protobuf_descriptor_set_path is required for protobuf"
    | some path => do
        let descriptorSet ← H.disk.read path
        let pool ← ofExcept (H.decodeDescriptorSet descriptorSet)
        return .newWithCacheCapacity (.protobuf (some pool)) defaultTopicCacheCapacity
  else throw ("unsupported payload.format: " ++ config.payload.format)

def loadRules (engine : RuleEngine) (ruleBytes : ByteArray) : Except String RuleEngine :=
  match engine.loadRulesFromJsonBytes H.crates ruleBytes.toList with
  | (_, .error err) => .error (ruleErrorText err)
  | (engine, .ok _) => .ok engine

-- `logger::init`
def initLogger : OssProgram Unit := do
  let logDir ← ofExcept env.logDir
  mapErr ("failed to create log dir " ++ logDir ++ ": " ++ ·) (H.disk.createDir logDir)
  H.setUpLogging logDir

/-- The steps that only read. -/
def prepare (configPath : String) : OssProgram Prepared := do
  let config ← loadConfig H.serde H.disk configPath
  let ruleBytes ← H.disk.read config.ruleJsonPath
  let engine ← buildRuleEngine H config
  let engine ← ofExcept (loadRules H engine ruleBytes)
  return ⟨config, engine⟩

-- a file that cannot be read holds no ids
def readClientIdFile (path : String) : OssProgram (Option ByteArray) := do
  let files ← get
  return if (H.disk.unreadable path).isSome then none else files (H.disk.resolve path)

def createParent (path : String) : OssProgram Unit :=
  match (parent path).filter (· ≠ "") with
  | some dir => H.disk.createDir dir
  | none => pure ()

def writeClientIdFile (path : String) (clientIds : List String) : OssProgram Unit :=
  match persistClientIds none clientIds with
  | none => pure ()
  | some content => do
      createParent H path
      H.disk.write path content

def startDaemon (prepared : Prepared) : OssProgram (Launch H.rdkafka) := do
  let config := prepared.config
  let engine := prepared.engine
  let nodeId := config.mqtt.nodeId.getD env.generateDefaultNodeId
  let requestedClientCount := max config.mqtt.clientCount 1
  let file ← readClientIdFile H config.clientIdsPath
  let clientIds := resolveClientIds file nodeId requestedClientCount
  writeClientIdFile H config.clientIdsPath clientIds
  ofExcept H.startMetricsServer
  let dispatcher ← ofExcept (Dispatcher.new H.rdkafka H.order config.sinks engine.ruleMetadata)
  let mqtt := mqttConfig clientIds config.mqtt.groupName config.mqtt.ordered config.mqtt.orderedPrefix
  let adapter ← ofExcept ((startMqtt H.rumqttc mqtt engine.topicFilters).mapError mqttErrorDebug)
  return {
    config := config
    engine := engine
    clientIds := clientIds
    evalQueueCapacity := (max config.mqtt.queueCapacity 1).toNat
    dispatcher := dispatcher
    adapter := adapter }

def run : OssProgram (Outcome H.rdkafka) := do
  let defaultConfigPath ← ofExcept env.configPath
  provisionDefaultConfigIfMissing H.serde H.disk defaultConfigPath
  match ← ofExcept (parseCli env.args defaultConfigPath) with
  | .help program => return .usage program
  | .version => return .version
  | .run configPath =>
      initLogger H env
      let prepared ← prepare H configPath
      let launch ← startDaemon H env prepared
      return .started launch

end Start

/-! ## The files a start changes -/

section Frame

open FileProgram

variable {H : Host} {env : Environment} {place : Place} {s : Files Place ByteArray}

theorem buildRuleEngine_eq_ok {config : OssConfig} {engine : RuleEngine} {t : Files Place ByteArray}
    (h : (buildRuleEngine H config).run s = .ok engine t) :
    t = s ∧ ∃ decoder, DecoderOf H s config.payload decoder ∧
      engine = .newWithCacheCapacity decoder defaultTopicCacheCapacity := by
  unfold buildRuleEngine at h
  split at h
  · rename_i hformat
    cases h
    exact ⟨rfl, _, .json hformat, rfl⟩
  · split at h
    · rename_i hformat
      split at h
      · cases h
      · rename_i path hpath
        obtain ⟨descriptorSet, u, hread, hdecoding⟩ := bind_eq_ok.mp h
        obtain ⟨rfl, hthere⟩ := read_eq_ok H.disk hread
        obtain ⟨pool, _, hpool, hreturn⟩ := bind_eq_ok.mp hdecoding
        obtain ⟨hdecoded, rfl⟩ := ofExcept_eq_ok.mp hpool
        cases hreturn
        exact ⟨rfl, _, .protobuf hformat path hpath descriptorSet hthere pool hdecoded, rfl⟩
    · cases h

/-- The steps of a preparation that succeeds, which change nothing. -/
theorem prepare_cases {configPath : String} {prepared : Prepared} {t : Files Place ByteArray}
    (h : (prepare H configPath).run s = .ok prepared t) :
    t = s ∧ (loadConfig H.serde H.disk configPath).run s = .ok prepared.config s ∧
      ∃ ruleBytes decoder, s (H.disk.resolve prepared.config.ruleJsonPath) = some ruleBytes ∧
        DecoderOf H s prepared.config.payload decoder ∧
        loadRules H (.newWithCacheCapacity decoder defaultTopicCacheCapacity) ruleBytes =
          .ok prepared.engine := by
  obtain ⟨config, u, hconfig, hreading⟩ := bind_eq_ok.mp h
  obtain ⟨rfl, -⟩ := loadConfig_eq_ok H.serde H.disk hconfig
  obtain ⟨ruleBytes, _, hrules, hbuilding⟩ := bind_eq_ok.mp hreading
  obtain ⟨rfl, hruleBytes⟩ := read_eq_ok H.disk hrules
  obtain ⟨fresh, _, hbuilt, hadding⟩ := bind_eq_ok.mp hbuilding
  obtain ⟨rfl, decoder, hdecoder, rfl⟩ := buildRuleEngine_eq_ok hbuilt
  obtain ⟨engine, _, hloaded, hreturn⟩ := bind_eq_ok.mp hadding
  obtain ⟨hengine, rfl⟩ := ofExcept_eq_ok.mp hloaded
  cases hreturn
  exact ⟨rfl, hconfig, ruleBytes, decoder, hruleBytes, hdecoder, hengine⟩

/-- The stages of a start that gets as far as the client ids: `u` are the files after the provisioning
and `v` those that the configuration, the rules and the client ids are read from. -/
structure Reaches (H : Host) (env : Environment) (s u v : Files Place ByteArray) (configPath : String)
    (prepared : Prepared) : Prop where
  provision : ∃ defaultPath, env.configPath = .ok defaultPath ∧
    (provisionDefaultConfigIfMissing H.serde H.disk defaultPath).run s = .ok () u ∧
      parseCli env.args defaultPath = .ok (.run configPath)
  logging : (initLogger H env).run u = .ok () v
  prepare : (prepare H configPath).run v = .ok prepared v

theorem Reaches.run_eq {u v : Files Place ByteArray} {configPath : String} {prepared : Prepared}
    (h : Reaches H env s u v configPath prepared) :
    (run H env).run s =
      (startDaemon H env prepared >>= fun launch ↦ pure (.started launch)).run v := by
  obtain ⟨defaultPath, hconfig, hprovision, hcommand⟩ := h.provision
  have hfirst : (ofExcept env.configPath).run s = .ok defaultPath s :=
    ofExcept_eq_ok.mpr ⟨hconfig, rfl⟩
  have hsecond : (ofExcept (parseCli env.args defaultPath)).run u = .ok (.run configPath) u :=
    ofExcept_eq_ok.mpr ⟨hcommand, rfl⟩
  unfold run
  rw [EStateM.run_bind, hfirst]
  simp only
  rw [EStateM.run_bind, hprovision]
  simp only
  rw [EStateM.run_bind, hsecond]
  simp only
  rw [EStateM.run_bind, h.logging]
  simp only
  rw [EStateM.run_bind, h.prepare]

theorem exists_reaches {launch : Launch H.rdkafka} {t : Files Place ByteArray}
    (h : (run H env).run s = .ok (.started launch) t) :
    ∃ u v configPath prepared, Reaches H env s u v configPath prepared ∧
      (startDaemon H env prepared).run v = .ok launch t := by
  obtain ⟨defaultPath, _, hlookup, hprovisioning⟩ := bind_eq_ok.mp h
  obtain ⟨hconfig, rfl⟩ := ofExcept_eq_ok.mp hlookup
  obtain ⟨_, u, hprovision, hparsing⟩ := bind_eq_ok.mp hprovisioning
  obtain ⟨command, _, hparsed, hrunning⟩ := bind_eq_ok.mp hparsing
  obtain ⟨hcommand, rfl⟩ := ofExcept_eq_ok.mp hparsed
  cases command with
  | help program => cases hrunning
  | version => cases hrunning
  | run configPath =>
      obtain ⟨_, v, hlogging, hpreparing⟩ := bind_eq_ok.mp hrunning
      obtain ⟨prepared, _, hprepare, hstarting⟩ := bind_eq_ok.mp hpreparing
      obtain ⟨rfl, -⟩ := prepare_cases hprepare
      obtain ⟨launch', _, hstart, hreturn⟩ := bind_eq_ok.mp hstarting
      cases hreturn
      exact ⟨_, _, configPath, prepared,
        ⟨⟨defaultPath, hconfig, hprovision, hcommand⟩, hlogging, hprepare⟩, hstart⟩

-- a disk that refuses nothing, seen from its root
def demoDisk : OssDisk where
  resolve path := if path.toList.take 2 = ['.', '/'] then String.ofList (path.toList.drop 2) else path
  notFound _ := "No such file or directory (os error 2)"
  unreadable _ := none
  createDirAll _ := none
  unwritable _ _ _ := none

-- a host that refuses nothing, and whose file formats are those of the two texts of `demoFiles`
def demoHost : Host where
  disk := demoDisk
  serde :=
    { fromSlice := fun _ ↦ .ok ⟨"rule.json", none, none, none, some ((∅ : SinkConfig).insert "audit" .log)⟩
      toVecPretty := fun _ ↦ .error "recursion limit exceeded" }
  crates := { demoCrates with ruleFileFromSlice := fun _ ↦ .ok [⟨selectAll "t", ["audit"], none⟩] }
  rdkafka := demoRdkafka
  rumqttc := ⟨fun _ ↦ true⟩
  order := .increasing
  decodeDescriptorSet _ := .error "failed to decode Protobuf message"
  setUpLogging logDir := demoDisk.writeIfMissing (join logDir "tenon.log.2026-01-01") .empty
  startMetricsServer := .ok ()

def demoEnvironment : Environment := ⟨some "home", none, ["tenon-oss"], 7, 0⟩

variable {ids : List String}

/-- What the adapter is started with. -/
structure Starts (H : Host) (prepared : Prepared) (launch : Launch H.rdkafka) : Prop where
  config : launch.config = prepared.config
  engine : launch.engine = prepared.engine
  queue : 0 < launch.evalQueueCapacity
  dispatcher : Dispatcher.new H.rdkafka H.order prepared.config.sinks prepared.engine.ruleMetadata =
    .ok launch.dispatcher
  adapter : startMqtt H.rumqttc (mqttConfig launch.clientIds prepared.config.mqtt.groupName
    prepared.config.mqtt.ordered prepared.config.mqtt.orderedPrefix) prepared.engine.topicFilters =
      .ok launch.adapter

theorem ok_of_mapError {ε ε' α : Type} {f : ε → ε'} {x : Except ε α} {a : α}
    (h : x.mapError f = .ok a) : x = .ok a := by
  cases x with
  | error err => cases h
  | ok b => exact congrArg Except.ok (Except.ok.inj h)

theorem toNat_max_one_pos (n : UInt16) : 0 < (max n 1).toNat := by
  show 0 < (if n ≤ 1 then 1 else n).toNat
  split
  · exact Nat.zero_lt_one
  · rename_i hlt
    rw [UInt16.le_iff_toNat_le, not_le] at hlt
    exact Nat.zero_lt_of_lt hlt

theorem startDaemon_eq_ok {prepared : Prepared} {launch : Launch H.rdkafka}
    {t : Files Place ByteArray} (h : (startDaemon H env prepared).run s = .ok launch t) :
    Starts H prepared launch ∧ ∃ file u, (readClientIdFile H prepared.config.clientIdsPath).run s =
        .ok file u ∧ launch.clientIds = resolveClientIds file
          (prepared.config.mqtt.nodeId.getD env.generateDefaultNodeId)
          (max prepared.config.mqtt.clientCount 1) := by
  obtain ⟨file, u, hfile, hwriting⟩ := bind_eq_ok.mp h
  obtain ⟨_, _, -, hserving⟩ := bind_eq_ok.mp hwriting
  obtain ⟨_, _, -, hdispatching⟩ := bind_eq_ok.mp hserving
  obtain ⟨dispatcher, _, hdispatcher, hadapting⟩ := bind_eq_ok.mp hdispatching
  obtain ⟨adapter, _, hadapter, hreturn⟩ := bind_eq_ok.mp hadapting
  obtain ⟨hnew, -⟩ := ofExcept_eq_ok.mp hdispatcher
  obtain ⟨hstart, -⟩ := ofExcept_eq_ok.mp hadapter
  cases hreturn
  exact ⟨⟨rfl, rfl, toNat_max_one_pos _, hnew, ok_of_mapError hstart⟩, file, u, hfile, rfl⟩

end Frame

end Tenon.Oss
