import Tenon.Oss.FirstStart

/-!
# StartConditions — when a start gets to its adapter

On a host that refuses nothing the files decide whether a start gets as far as the threads of its adapter:
its configuration parses, its format has a decoder, the definitions of its rule file are accepted, each
destination they list has a sink that can be built, and the 16 bits of the client count hold the number of
client ids.
-/

open Tenon.Core Tenon.Coordinator Reasoning Reasoning.Transition

namespace Tenon.Oss

open FileProgram

/-- Nothing outside of the start's own code refuses it. -/
structure Obliges (H : Host) : Prop where
  readable : ∀ path, H.disk.unreadable path = none
  creates : ∀ dir, H.disk.createDirAll dir = none
  writable : ∀ path before content, H.disk.unwritable path before content = none
  logger : ∀ logDir s, ∃ t, (H.setUpLogging logDir).run s = .ok () t
  metrics : H.startMetricsServer = .ok ()
  serializes : ∀ value, ∃ content, H.serde.toVecPretty value = .ok content

def RuleFile (H : Host) (files : Files Place ByteArray) (path : String) (defs : List RuleDefinition) :
    Prop :=
  ∃ ruleBytes, files (H.disk.resolve path) = some ruleBytes ∧
    H.crates.ruleFileFromSlice ruleBytes.toList = .ok defs

-- the engine that the rules are added to
def freshEngine (decoder : PayloadDecoder) : RuleEngine :=
  .newWithCacheCapacity decoder defaultTopicCacheCapacity

/-- The ids of a start with the configuration. -/
def clientIdsOf (H : Host) (env : Environment) (files : Files Place ByteArray) (config : OssConfig) :
    List String :=
  resolveClientIds (files (H.disk.resolve config.clientIdsPath))
    (config.mqtt.nodeId.getD env.generateDefaultNodeId) (max config.mqtt.clientCount 1)

/-- What a start with the configuration needs. -/
structure Startable (H : Host) (env : Environment) (files : Files Place ByteArray) (config : OssConfig)
    (decoder : PayloadDecoder) (defs : List RuleDefinition) : Prop where
  decodes : DecoderOf H files config.payload decoder
  rules : RuleFile H files config.ruleJsonPath defs
  accepted : ∀ rule ∈ defs, ∃ compiled, Accepts H.crates (freshEngine decoder) rule compiled
  sinks : ∀ rule ∈ defs, ∀ destination ∈ rule.destinations, ∃ definition sink,
    config.sinks.lookup destination = some definition ∧
      BuiltInSink.new H.rdkafka destination definition = .ok sink
  clientIds : (clientIdsOf H env files config).length < 2 ^ 16

section Prepare

variable {H : Host} {files t : Files Place ByteArray}

theorem loadConfig_iff (hobliges : Obliges H) {path : String} {config : OssConfig} :
    (loadConfig H.serde H.disk path).run files = .ok config t ↔
      t = files ∧ ConfigFile H files path config := by
  constructor
  · exact loadConfig_eq_ok H.serde H.disk
  · intro h
    obtain ⟨rfl, content, raw, hcontent, hraw, rfl⟩ := h
    have hread : (H.disk.read path).run t = .ok content t :=
      run_read H.disk (hobliges.readable path) hcontent
    refine bind_eq_ok.mpr ⟨content, t, run_mapErr_ok_iff.mpr hread, run_mapErr_ok_iff.mpr ?_⟩
    rw [hraw]
    exact ofExcept_eq_ok.mpr ⟨rfl, rfl⟩

theorem buildRuleEngine_iff (hobliges : Obliges H) {config : OssConfig} {engine : RuleEngine} :
    (buildRuleEngine H config).run files = .ok engine t ↔
      t = files ∧ ∃ decoder, DecoderOf H files config.payload decoder ∧ engine = freshEngine decoder := by
  constructor
  · exact buildRuleEngine_eq_ok
  · intro h
    obtain ⟨rfl, decoder, hdecoder, rfl⟩ := h
    unfold buildRuleEngine
    cases hdecoder with
    | json hformat =>
        rw [if_pos hformat]
        rfl
    | protobuf hformat path hpath descriptorSet hthere pool hpool =>
        have hnot : config.payload.format ∉ ["json", "JSON"] := by
          intro hjson
          simp only [List.mem_cons, List.not_mem_nil, or_false] at hjson hformat
          rcases hjson with h | h <;> simp [h] at hformat
        rw [if_neg hnot, if_pos hformat, hpath]
        have hread : (H.disk.read path).run t = .ok descriptorSet t :=
          run_read H.disk (hobliges.readable path) hthere
        exact bind_eq_ok.mpr ⟨descriptorSet, t, hread,
          bind_eq_ok.mpr ⟨pool, t, ofExcept_eq_ok.mpr ⟨hpool, rfl⟩, rfl⟩⟩

/-- The definitions of a rule file that loads are all accepted. -/
theorem loadRules_spec {decoder : PayloadDecoder} {ruleBytes : ByteArray} {engine : RuleEngine}
    (h : loadRules H (freshEngine decoder) ruleBytes = .ok engine) :
    ∃ defs compiled, H.crates.ruleFileFromSlice ruleBytes.toList = .ok defs ∧
      List.Forall₂ (Accepts H.crates (freshEngine decoder)) defs compiled ∧
        engine.rules = compiled.map some := by
  unfold loadRules at h
  cases hfile : H.crates.ruleFileFromSlice ruleBytes.toList with
  | error err =>
      rw [loadRules_unparsed hfile] at h
      cases h
  | ok defs =>
      rw [loadRules_parsed hfile] at h
      have hcases := addRules_cases H.crates (freshEngine decoder) 0 defs
      generalize (freshEngine decoder).addRules H.crates 0 defs = result at h hcases
      cases hcases with
      | all compiled hall =>
          cases h
          exact ⟨defs, compiled, rfl, hall, rules_pushRules _ compiled⟩
      | stopped before after rule compiled err hdefs hbefore hrefused => cases h

theorem exists_loadRules {decoder : PayloadDecoder} {ruleBytes : ByteArray} {defs : List RuleDefinition}
    (hfile : H.crates.ruleFileFromSlice ruleBytes.toList = .ok defs)
    (hall : ∀ rule ∈ defs, ∃ compiled, Accepts H.crates (freshEngine decoder) rule compiled) :
    ∃ engine, loadRules H (freshEngine decoder) ruleBytes = .ok engine := by
  unfold loadRules
  rw [loadRules_parsed hfile]
  have hcases := addRules_cases H.crates (freshEngine decoder) 0 defs
  generalize (freshEngine decoder).addRules H.crates 0 defs = result at hcases
  cases hcases with
  | all compiled _ => exact ⟨_, rfl⟩
  | stopped before after rule compiled err hdefs hbefore hrefused =>
      have hmem : rule ∈ defs := hdefs ▸ List.mem_append_right before List.mem_cons_self
      obtain ⟨c, haccepts⟩ := hall rule hmem
      exact absurd haccepts (hrefused c)

/-- What a start has prepared from the files. -/
structure PreparedFrom (H : Host) (files : Files Place ByteArray) (configPath : String)
    (prepared : Prepared) (decoder : PayloadDecoder) (defs : List RuleDefinition)
    (compiled : List CompiledRule) : Prop where
  config : ConfigFile H files configPath prepared.config
  decodes : DecoderOf H files prepared.config.payload decoder
  file : RuleFile H files prepared.config.ruleJsonPath defs
  accepted : List.Forall₂ (Accepts H.crates (freshEngine decoder)) defs compiled
  rules : prepared.engine.rules = compiled.map some

theorem prepare_spec {configPath : String} {prepared : Prepared}
    (h : (prepare H configPath).run files = .ok prepared t) :
    t = files ∧ ∃ decoder defs compiled,
      PreparedFrom H files configPath prepared decoder defs compiled := by
  obtain ⟨rfl, hconfig, ruleBytes, decoder, hruleBytes, hdecoder, hloaded⟩ := prepare_cases h
  obtain ⟨-, hconfigFile⟩ := loadConfig_eq_ok H.serde H.disk hconfig
  obtain ⟨defs, compiled, hparsed, haccepted, hrules⟩ := loadRules_spec hloaded
  exact ⟨rfl, decoder, defs, compiled, hconfigFile, hdecoder, ⟨ruleBytes, hruleBytes, hparsed⟩, haccepted,
    hrules⟩

theorem exists_prepared (hobliges : Obliges H) {configPath : String} {config : OssConfig}
    (hconfig : ConfigFile H files configPath config) {decoder : PayloadDecoder}
    (hdecoder : DecoderOf H files config.payload decoder) {defs : List RuleDefinition}
    (hrules : RuleFile H files config.ruleJsonPath defs)
    (hall : ∀ rule ∈ defs, ∃ compiled, Accepts H.crates (freshEngine decoder) rule compiled) :
    ∃ prepared, (prepare H configPath).run files = .ok prepared files ∧ prepared.config = config := by
  obtain ⟨ruleBytes, hthere, hparsed⟩ := hrules
  obtain ⟨engine, hengine⟩ := exists_loadRules hparsed hall
  have hread : (H.disk.read config.ruleJsonPath).run files = .ok ruleBytes files :=
    run_read H.disk (hobliges.readable _) hthere
  refine ⟨⟨config, engine⟩, bind_eq_ok.mpr
    ⟨config, files, (loadConfig_iff hobliges).mpr ⟨rfl, hconfig⟩, ?_⟩, rfl⟩
  refine bind_eq_ok.mpr ⟨ruleBytes, files, hread, ?_⟩
  refine bind_eq_ok.mpr ⟨freshEngine decoder, files,
    (buildRuleEngine_iff hobliges).mpr ⟨rfl, decoder, hdecoder, rfl⟩, ?_⟩
  exact bind_eq_ok.mpr ⟨engine, files, ofExcept_eq_ok.mpr ⟨hengine, rfl⟩, rfl⟩

end Prepare

/-! ## Behind the preparation -/

section StartDaemon

variable {H : Host} {env : Environment} {files t : Files Place ByteArray}

-- the destinations of the engine are those of the definitions
theorem mem_usedDestinations {C : Crates} {fresh engine : RuleEngine} {defs : List RuleDefinition}
    {compiled : List CompiledRule} (haccepted : List.Forall₂ (Accepts C fresh) defs compiled)
    (hrules : engine.rules = compiled.map some) {destination : String} :
    destination ∈ usedDestinations engine.ruleMetadata ↔
      ∃ rule ∈ defs, destination ∈ rule.destinations := by
  have hlive (i : Nat) : liveRule engine.rules i = compiled[i]? := by
    rw [liveRule, hrules, List.getElem?_map]
    cases compiled[i]? <;> rfl
  have hsame {i : Nat} (hdefs : i < defs.length) (hcompiled : i < compiled.length) :
      (compiled.get ⟨i, hcompiled⟩).destinations = (defs.get ⟨i, hdefs⟩).destinations :=
    (compileRule_ok C (haccepted.get hdefs hcompiled).2).2.2
  have hlength := haccepted.length_eq
  rw [usedDestinations, List.mem_toFinset, List.mem_flatMap]
  constructor
  · intro h
    obtain ⟨metadata, hmetadata, hmem⟩ := h
    obtain ⟨c, hc, heq⟩ := mem_ruleMetadata.mp hmetadata
    rw [hlive] at hc
    obtain ⟨hcompiled, rfl⟩ := List.getElem?_eq_some_iff.mp hc
    have hdefs : metadata.ruleIndex < defs.length := hlength ▸ hcompiled
    rw [heq] at hmem
    exact ⟨defs.get ⟨_, hdefs⟩, List.get_mem _ _, hsame hdefs hcompiled ▸ hmem⟩
  · intro h
    obtain ⟨rule, hrule, hmem⟩ := h
    obtain ⟨⟨i, hdefs⟩, rfl⟩ := List.get_of_mem hrule
    have hcompiled : i < compiled.length := hlength ▸ hdefs
    refine ⟨⟨i, (compiled.get ⟨i, hcompiled⟩).destinations⟩, mem_ruleMetadata.mpr ⟨_, ?_, rfl⟩, ?_⟩
    · rw [hlive]
      exact List.getElem?_eq_getElem hcompiled
    · rw [hsame hdefs hcompiled]
      exact hmem

theorem exists_dispatcher_iff {K : Rdkafka} {order : DispatchOrder} {sinks : SinkConfig}
    {ruleMetadata : List RuleMetadata} :
    (∃ dispatcher, Dispatcher.new K order sinks ruleMetadata = .ok dispatcher) ↔
      ∀ destination ∈ usedDestinations ruleMetadata, ∃ definition sink,
        sinks.lookup destination = some definition ∧
          BuiltInSink.new K destination definition = .ok sink := by
  constructor
  · intro h destination hused
    obtain ⟨dispatcher, hnew⟩ := h
    obtain ⟨metadata, hmetadata, hd⟩ := List.mem_flatMap.mp (List.mem_toFinset.mp hused)
    obtain ⟨definition, sink, hdefinition, hsink, -⟩ := exists_sink hnew hmetadata hd
    exact ⟨definition, sink, hdefinition, hsink⟩
  · exact exists_new

theorem exists_clientIdFile (hobliges : Obliges H) (path : String) (clientIds : List String) :
    ∃ t, (writeClientIdFile H path clientIds).run files = .ok () t := by
  unfold writeClientIdFile
  cases persistClientIds none clientIds with
  | none => exact ⟨files, rfl⟩
  | some content =>
      have hparent : (createParent H path).run files = .ok () files := by
        unfold createParent
        split
        · exact run_createDir H.disk (hobliges.creates _)
        · rfl
      exact ⟨_, bind_eq_ok.mpr ⟨(), files, hparent,
        run_write H.disk (hobliges.writable path _ content)⟩⟩

theorem run_readClientIdFile (hobliges : Obliges H) (path : String) :
    (readClientIdFile H path).run files = .ok (files (H.disk.resolve path)) files := by
  unfold readClientIdFile
  rw [EStateM.run_bind, EStateM.run_get, hobliges.readable path]
  rfl

/-- Behind the preparation only a missing sink and too many client ids end a start. -/
theorem startDaemon_iff (hobliges : Obliges H) {prepared : Prepared} :
    (∃ launch t, (startDaemon H env prepared).run files = .ok launch t) ↔
      (∃ dispatcher, Dispatcher.new H.rdkafka H.order prepared.config.sinks prepared.engine.ruleMetadata =
        .ok dispatcher) ∧ (clientIdsOf H env files prepared.config).length < 2 ^ 16 := by
  have hne : clientIdsOf H env files prepared.config ≠ [] := resolveClientIds_ne_nil _ _ _
  have hread : (readClientIdFile H prepared.config.clientIdsPath).run files =
      .ok (files (H.disk.resolve prepared.config.clientIdsPath)) files :=
    run_readClientIdFile hobliges _
  constructor
  · intro h
    obtain ⟨launch, t, h⟩ := h
    obtain ⟨hstarts, file, u, hfile, hclientIds⟩ := startDaemon_eq_ok h
    rw [hread] at hfile
    cases hfile
    have hadapter := hstarts.adapter
    rw [hclientIds] at hadapter
    exact ⟨⟨_, hstarts.dispatcher⟩, (startMqtt_iff hne).mp ⟨_, hadapter⟩⟩
  · intro h
    obtain ⟨⟨dispatcher, hdispatcher⟩, hlength⟩ := h
    obtain ⟨adapter, hadapter⟩ : ∃ adapter, startMqtt H.rumqttc (mqttConfig
        (clientIdsOf H env files prepared.config) prepared.config.mqtt.groupName
        prepared.config.mqtt.ordered prepared.config.mqtt.orderedPrefix) prepared.engine.topicFilters =
          .ok adapter := (startMqtt_iff hne).mpr hlength
    obtain ⟨u, hwrite⟩ : ∃ u, (writeClientIdFile H prepared.config.clientIdsPath
        (clientIdsOf H env files prepared.config)).run files = .ok () u :=
      exists_clientIdFile hobliges _ _
    have hstart : (ofExcept ((startMqtt H.rumqttc (mqttConfig (clientIdsOf H env files prepared.config)
        prepared.config.mqtt.groupName prepared.config.mqtt.ordered prepared.config.mqtt.orderedPrefix)
          prepared.engine.topicFilters).mapError mqttErrorDebug)).run u = .ok adapter u := by
      rw [hadapter]
      exact ofExcept_eq_ok.mpr ⟨rfl, rfl⟩
    let launch : Launch H.rdkafka :=
      { config := prepared.config
        engine := prepared.engine
        clientIds := clientIdsOf H env files prepared.config
        evalQueueCapacity := (max prepared.config.mqtt.queueCapacity 1).toNat
        dispatcher := dispatcher
        adapter := adapter }
    refine ⟨launch, u, bind_eq_ok.mpr ⟨_, files, hread, ?_⟩⟩
    refine bind_eq_ok.mpr ⟨(), u, hwrite, ?_⟩
    refine bind_eq_ok.mpr ⟨(), u, ofExcept_eq_ok.mpr ⟨hobliges.metrics, rfl⟩, ?_⟩
    refine bind_eq_ok.mpr ⟨dispatcher, u, ofExcept_eq_ok.mpr ⟨hdispatcher, rfl⟩, ?_⟩
    exact bind_eq_ok.mpr ⟨adapter, u, hstart, rfl⟩

end StartDaemon

/-! ## The whole start -/

section Provision

-- a name behind a directory has a separator before it
theorem exists_separator {dir : String} (hdir : dir ≠ "") (name : String) :
    ∃ before, (join dir name).toList = before ++ '/' :: name.toList := by
  unfold join
  split
  · rename_i hlast
    have hlast' : dir.toList.getLast? = some '/' := hlast.resolve_left hdir
    obtain ⟨before, hbefore⟩ := List.getLast?_eq_some_iff.mp hlast'
    refine ⟨before, ?_⟩
    rw [String.toList_append, hbefore, List.append_assoc]
    rfl
  · refine ⟨dir.toList, ?_⟩
    rw [String.toList_append, String.toList_append, List.append_assoc]
    rfl

-- only `.` is a silent component that begins with a character
theorem exists_splitOn_cons {c : Char} {cs : List Char} (hc : c ≠ '/') :
    ∃ g rest, (c :: cs).splitOn '/' = (c :: g) :: rest ∧ (g = [] → cs = [] ∨ ∃ ds, cs = '/' :: ds) := by
  have hbeq : (c == '/') = false := by simpa using hc
  obtain ⟨g, rest, hsplit⟩ := List.exists_cons_of_ne_nil (List.splitOn_ne_nil '/' cs)
  refine ⟨g, rest, ?_, fun hg ↦ ?_⟩
  · rw [List.splitOn_cons_eq_if_modifyHead, hbeq, hsplit]
    rfl
  · subst hg
    cases cs with
    | nil => exact Or.inl rfl
    | cons d ds =>
        by_cases hd : d = '/'
        · exact Or.inr ⟨ds, by rw [hd]⟩
        · have hbeq : (d == '/') = false := by simpa using hd
          obtain ⟨g', rest', hsplit'⟩ := List.exists_cons_of_ne_nil (List.splitOn_ne_nil '/' ds)
          rw [List.splitOn_cons_eq_if_modifyHead, hbeq, hsplit'] at hsplit
          cases hsplit

theorem intercalate_ne_nil {sep f : List Char} (hf : f ≠ []) (more : List (List Char)) :
    sep.intercalate (f :: more) ≠ [] := by
  cases more with
  | nil =>
      rw [List.intercalate_singleton]
      exact hf
  | cons g rest =>
      rw [List.intercalate_cons_cons, List.append_assoc]
      exact List.append_ne_nil_of_left_ne_nil hf _

-- what begins like a path without a start has a component there
theorem trimmed_ne_nil {before : List Char} (hne : before ≠ []) (more : List Char)
    (hstart : pathStart (before ++ '/' :: more) = []) :
    ['/'].intercalate ((before.splitOn '/').rdropWhile isSilent) ≠ [] := by
  obtain ⟨c, cs, rfl⟩ := List.exists_cons_of_ne_nil hne
  have hc : c ≠ '/' := by
    rintro rfl
    exact absurd hstart (by simp [pathStart])
  obtain ⟨g, rest, hsplit, hcs⟩ : ∃ g rest, (c :: cs).splitOn '/' = (c :: g) :: rest ∧
      (g = [] → cs = [] ∨ ∃ ds, cs = '/' :: ds) := exists_splitOn_cons hc
  have hnamed : isSilent (c :: g) = false := by
    by_contra hsilent
    have hdot : c = '.' ∧ g = [] := by simpa [isSilent] using hsilent
    rcases hdot with ⟨rfl, hg⟩
    rcases hcs hg with rfl | ⟨ds, rfl⟩ <;> simp [pathStart] at hstart
  rw [hsplit]
  obtain ⟨kept, hkept⟩ := List.rdropWhile_prefix isSilent (l := (c :: g) :: rest)
  cases hdrop : ((c :: g) :: rest).rdropWhile isSilent with
  | nil =>
      have hsilent := List.rdropWhile_eq_nil_iff.mp hdrop (c :: g) List.mem_cons_self
      rw [hnamed] at hsilent
      cases hsilent
  | cons f more' =>
      rw [hdrop] at hkept
      cases hkept
      exact intercalate_ne_nil (List.cons_ne_nil _ _) _

-- the components of a path to `name`, of which the first ones name the directory
theorem exists_components (before : List Char) {name : List Char} (hplain : '/' ∉ name) :
    ∃ components, ((before ++ '/' :: name).drop (pathStart (before ++ '/' :: name)).length).splitOn '/' =
        components ++ [name] ∧
      (pathStart (before ++ '/' :: name) = [] →
        ['/'].intercalate (components.rdropWhile isSilent) ≠ []) := by
  have hlast (b : List Char) : (b ++ '/' :: name).splitOn '/' = b.splitOn '/' ++ [name] := by
    rw [List.splitOn_append_cons_self, List.splitOn_eq_singleton hplain]
  by_cases hempty : before = []
  · subst hempty
    exact ⟨[], List.splitOn_eq_singleton hplain, fun hstart ↦ by cases hstart⟩
  · have hle : (pathStart (before ++ '/' :: name)).length ≤ before.length := by
      have hpos := List.length_pos_iff.mpr hempty
      have hone : (pathStart (before ++ '/' :: name)).length ≤ 1 := by
        unfold pathStart
        split <;> simp
      omega
    refine ⟨(before.drop (pathStart (before ++ '/' :: name)).length).splitOn '/', ?_, fun hstart ↦ ?_⟩
    · rw [List.drop_append_of_le_length hle, hlast]
    · rw [hstart]
      exact trimmed_ne_nil hempty name hstart

/-- The parent of a named file in a directory can be named. -/
theorem parent_join {dir name : String} (hdir : dir ≠ "") (hnamed : isSilent name.toList = false)
    (hplain : '/' ∉ name.toList) : ∃ up, parent (join dir name) = some up ∧ up ≠ "" := by
  obtain ⟨before, hbefore⟩ := exists_separator hdir name
  obtain ⟨components, hcomponents, hdirectory⟩ := exists_components before hplain
  have hkept : (components ++ [name.toList]).rdropWhile isSilent = components ++ [name.toList] :=
    List.rdropWhile_concat_neg _ _ _ (by simp [hnamed])
  unfold parent
  simp only [hbefore, hcomponents, hkept, List.dropLast_concat]
  rw [if_neg (List.append_ne_nil_of_right_ne_nil _ (List.cons_ne_nil _ _))]
  refine ⟨_, rfl, fun hnone ↦ ?_⟩
  rw [← String.ofList_nil, String.ofList_inj, List.append_eq_nil_iff] at hnone
  exact hdirectory hnone.1 hnone.2

variable {H : Host} {env : Environment} {s : Files Place ByteArray}

/-- The files after the provisioning: a configuration that is there is left alone, and so is a rule next to
a missing one. -/
def provisioned (H : Host) (s : Files Place ByteArray) (configPath : String) : Files Place ByteArray :=
  match s (H.disk.resolve configPath), parent configPath with
  | none, some dir =>
      let rulePath := join dir "rule.json"
      let withRule := if (s (H.disk.resolve rulePath)).isSome then s
        else Function.update s (H.disk.resolve rulePath) (some defaultRuleJson.toUTF8)
      match H.serde.toVecPretty (defaultConfig rulePath (join dir "client_ids")) with
      | .ok content => Function.update withRule (H.disk.resolve configPath) (some content)
      | .error _ => withRule
  | _, _ => s

/-- The files that a start reads: those after the provisioning and the opening of its log. -/
def filesRead (H : Host) (env : Environment) (s : Files Place ByteArray) (configPath : String) :
    Files Place ByteArray :=
  left ((initLogger H env).run (provisioned H s configPath))

theorem run_provision (hobliges : Obliges H) {configPath : String}
    (hpath : env.configPath = .ok configPath) :
    (provisionDefaultConfigIfMissing H.serde H.disk configPath).run s =
      .ok () (provisioned H s configPath) := by
  have hisFile : (H.disk.isFile configPath).run s = .ok (s (H.disk.resolve configPath)).isSome s := rfl
  refine bind_eq_ok.mpr ⟨(s (H.disk.resolve configPath)).isSome, s, hisFile, ?_⟩
  unfold provisioned
  cases hthere : s (H.disk.resolve configPath) with
  | some content => rfl
  | none =>
      obtain ⟨home, hhome, rfl⟩ := exists_configPath hpath
      obtain ⟨dir, hparent, hdir⟩ : ∃ dir, parent (join home "config.json") = some dir ∧ dir ≠ "" :=
        parent_join hhome (by decide +kernel) (by decide)
      have hfilter : (some dir).filter (· ≠ "") = some dir :=
        Option.filter_eq_some_iff.mpr ⟨rfl, by simpa using hdir⟩
      obtain ⟨content, hcontent⟩ := hobliges.serializes
        (defaultConfig (join dir "rule.json") (join dir "client_ids"))
      have hcreate : (H.disk.createDir dir).run s = .ok () s :=
        run_createDir H.disk (hobliges.creates dir)
      simp only [Option.isSome_none, Bool.false_eq_true, if_false, hparent, hfilter, hcontent]
      refine bind_eq_ok.mpr ⟨(), s, run_mapErr_ok_iff.mpr hcreate, ?_⟩
      refine bind_eq_ok.mpr ⟨(), _, run_mapErr_ok_iff.mpr
        (run_writeIfMissing H.disk (hobliges.writable _ _ _)), ?_⟩
      refine bind_eq_ok.mpr ⟨content, _, run_mapErr_ok_iff.mpr (ofExcept_eq_ok.mpr ⟨rfl, rfl⟩), ?_⟩
      exact run_mapErr_ok_iff.mpr (run_write H.disk (hobliges.writable _ _ _))

end Provision

section Whole

variable {H : Host} {env : Environment} {s t : Files Place ByteArray}

theorem logDir_of_configPath {configPath : String} (h : env.configPath = .ok configPath) :
    ∃ logDir, env.logDir = .ok logDir := by
  unfold Environment.configPath at h
  unfold Environment.logDir
  cases hhome : env.tenonHomeDir with
  | error err =>
      rw [hhome] at h
      cases h
  | ok home => exact ⟨_, rfl⟩

theorem run_initLogger (hobliges : Obliges H) {configPath : String}
    (hpath : env.configPath = .ok configPath) (files : Files Place ByteArray) :
    (initLogger H env).run files = .ok () (left ((initLogger H env).run files)) := by
  obtain ⟨logDir, hdir⟩ := logDir_of_configPath hpath
  have hlookup : (ofExcept env.logDir).run files = .ok logDir files :=
    ofExcept_eq_ok.mpr ⟨hdir, rfl⟩
  have hcreate : (H.disk.createDir logDir).run files = .ok () files :=
    run_createDir H.disk (hobliges.creates logDir)
  obtain ⟨t, hlogging⟩ := hobliges.logger logDir files
  have hrun : (initLogger H env).run files = .ok () t := by
    refine bind_eq_ok.mpr ⟨logDir, files, hlookup, ?_⟩
    exact bind_eq_ok.mpr ⟨(), files, run_mapErr_ok_iff.mpr hcreate, hlogging⟩
  rw [hrun]
  rfl

/-- A start that got to its adapter has found what it needs. -/
theorem startable_of_started (hobliges : Obliges H) {launch : Launch H.rdkafka}
    (hrun : (run H env).run s = .ok (.started launch) t) :
    ∃ defaultPath configPath decoder defs, env.configPath = .ok defaultPath ∧
      parseCli env.args defaultPath = .ok (.run configPath) ∧
      ConfigFile H (filesRead H env s defaultPath) configPath launch.config ∧
      Startable H env (filesRead H env s defaultPath) launch.config decoder defs := by
  obtain ⟨u, v, configPath, prepared, hreaches, hstart⟩ := exists_reaches hrun
  obtain ⟨defaultPath, hpath, hprovision, hcommand⟩ := hreaches.provision
  have hlogging := hreaches.logging
  rw [run_provision hobliges hpath] at hprovision
  cases hprovision
  rw [run_initLogger hobliges hpath] at hlogging
  cases hlogging
  obtain ⟨-, decoder, defs, compiled, hprepared⟩ := prepare_spec hreaches.prepare
  obtain ⟨hdispatcher, hlength⟩ := (startDaemon_iff hobliges).mp ⟨launch, t, hstart⟩
  have hsinks := exists_dispatcher_iff.mp hdispatcher
  rw [(startDaemon_eq_ok hstart).1.config]
  refine ⟨defaultPath, configPath, decoder, defs, hpath, hcommand, hprepared.config,
    ⟨hprepared.decodes, hprepared.file, fun rule hrule ↦ ?_, fun rule hrule destination hd ↦ ?_,
      hlength⟩⟩
  · obtain ⟨⟨i, hi⟩, rfl⟩ := List.get_of_mem hrule
    exact ⟨_, hprepared.accepted.get hi (hprepared.accepted.length_eq ▸ hi)⟩
  · exact hsinks destination
      ((mem_usedDestinations hprepared.accepted hprepared.rules).mpr ⟨rule, hrule, hd⟩)

/-- A start that finds what it needs gets there, with the configuration of the file. -/
theorem exists_started (hobliges : Obliges H) {defaultPath configPath : String} {config : OssConfig}
    {decoder : PayloadDecoder} {defs : List RuleDefinition} (hpath : env.configPath = .ok defaultPath)
    (hcommand : parseCli env.args defaultPath = .ok (.run configPath))
    (hconfig : ConfigFile H (filesRead H env s defaultPath) configPath config)
    (hstartable : Startable H env (filesRead H env s defaultPath) config decoder defs) :
    ∃ launch t, (run H env).run s = .ok (.started launch) t ∧ launch.config = config := by
  obtain ⟨prepared, hprepare, rfl⟩ :=
    exists_prepared hobliges hconfig hstartable.decodes hstartable.rules hstartable.accepted
  obtain ⟨-, _, defs', compiled, hprepared⟩ := prepare_spec hprepare
  -- the rule file holds one list of definitions
  have hdefs : defs' = defs := by
    obtain ⟨bytes, hbytes, hparsed⟩ := hprepared.file
    obtain ⟨bytes', hbytes', hparsed'⟩ := hstartable.rules
    rw [hbytes] at hbytes'
    cases hbytes'
    exact Except.ok.inj (hparsed.symm.trans hparsed')
  rw [hdefs] at hprepared
  have hdispatcher : ∃ dispatcher, Dispatcher.new H.rdkafka H.order prepared.config.sinks
      prepared.engine.ruleMetadata = .ok dispatcher := by
    apply exists_dispatcher_iff.mpr
    intro destination hused
    obtain ⟨rule, hrule, hd⟩ := (mem_usedDestinations hprepared.accepted hprepared.rules).mp hused
    exact hstartable.sinks rule hrule destination hd
  obtain ⟨launch, t, hstart⟩ : ∃ launch t, (startDaemon H env prepared).run
      (filesRead H env s defaultPath) = .ok launch t :=
    (startDaemon_iff hobliges).mpr ⟨hdispatcher, hstartable.clientIds⟩
  have hreaches : Reaches H env s _ _ configPath prepared :=
    ⟨⟨defaultPath, hpath, run_provision hobliges hpath, hcommand⟩, run_initLogger hobliges hpath _,
      hprepare⟩
  refine ⟨launch, t, ?_, (startDaemon_eq_ok hstart).1.config⟩
  rw [hreaches.run_eq]
  exact bind_eq_ok.mpr ⟨launch, t, hstart, rfl⟩

end Whole

/-- On a host that refuses nothing, a start gets to its adapter with a configuration exactly when the
command line names a file that holds it after the provisioning, its format has a decoder, every definition
of its rule file is accepted, every destination they list has a sink that can be built and its client ids
can be counted. -/
theorem start_reaches_adapter_iff {H : Host} (hobliges : Obliges H) (env : Environment)
    (s : Files Place ByteArray) (config : OssConfig) :
    (∃ launch t, (run H env).run s = .ok (.started launch) t ∧ launch.config = config) ↔
      ∃ defaultPath configPath decoder defs, env.configPath = .ok defaultPath ∧
        parseCli env.args defaultPath = .ok (.run configPath) ∧
        ConfigFile H (filesRead H env s defaultPath) configPath config ∧
        Startable H env (filesRead H env s defaultPath) config decoder defs := by
  constructor
  · intro h
    obtain ⟨launch, t, hrun, rfl⟩ := h
    exact startable_of_started hobliges hrun
  · intro h
    obtain ⟨defaultPath, configPath, decoder, defs, hpath, hcommand, hconfig, hstartable⟩ := h
    exact exists_started hobliges hpath hcommand hconfig hstartable

theorem start_reaches_adapter_iff_demo :
    ∃ launch t, demoFirstResult = .ok (.started launch) t ∧
      ∃ defaultPath configPath decoder defs, demoEnvironment.configPath = .ok defaultPath ∧
        parseCli demoEnvironment.args defaultPath = .ok (.run configPath) ∧
        ConfigFile demoFirstHost (filesRead demoFirstHost demoEnvironment (fun _ ↦ none) defaultPath)
          configPath launch.config ∧
        Startable demoFirstHost demoEnvironment
          (filesRead demoFirstHost demoEnvironment (fun _ ↦ none) defaultPath) launch.config decoder
          defs := by
  have hobliges : Obliges demoFirstHost :=
    ⟨fun _ ↦ rfl, fun _ ↦ rfl, fun _ _ _ ↦ rfl,
      fun _ _ ↦ ⟨_, run_writeIfMissing demoDisk rfl⟩, rfl, fun _ ↦ ⟨_, rfl⟩⟩
  obtain ⟨launch, t, hrun, -⟩ := exists_demoFirst
  exact ⟨launch, t, hrun,
    (start_reaches_adapter_iff hobliges demoEnvironment _ launch.config).mp ⟨launch, t, hrun, rfl⟩⟩

end Tenon.Oss
