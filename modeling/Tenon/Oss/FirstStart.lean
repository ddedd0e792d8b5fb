import Tenon.Core.Forwarding
import Tenon.Oss.CleanExit
import Tenon.Oss.RunningDaemon

/-!
# FirstStart — what the default files make of the daemon

A start without arguments that finds neither its configuration nor the rule next to it writes the default
ones and runs with them: it subscribes to everything and logs each message it accepts, once, in order and
as it came.
-/

open Tenon.Core Reasoning Reasoning.Transition

namespace Tenon.Oss

/-! ## The default files -/

-- the one rule of `defaultRuleJson`
def defaultRule : RuleDefinition := ⟨"select * from #", ["default_log"], none⟩

def defaultSinks : SinkConfig := (∅ : SinkConfig).insert "default_log" .log

-- the fields of `defaultConfig` that the model keeps
def defaultRawConfig (rulePath clientIdsPath : String) : RawConfig where
  ruleJsonPath := rulePath
  clientIdsPath := some clientIdsPath
  payload := some ⟨some "json", none⟩
  mqtt := some ⟨none, some 1, some "tenon-oss", none, none, none⟩
  sinks := some defaultSinks

-- `select * from "#"`
def defaultQuery : Query where
  withClause := none
  body := .select
    { distinct := none
      top := none
      projection := [.wildcard none]
      fromTables := [{ relation := .table [⟨"#", some '"'⟩] none [], joins := [] }]
      selection := none
      groupBy := .expressions []
      having := none
      others := [] }
  orderBy := []
  limit := none
  limitBy := []
  offset := none
  fetch := none

/-- The texts of the default files are read back as what they say. -/
structure ReadsDefaults (H : Host) (env : Environment) : Prop where
  config : ∀ configPath dir content, env.configPath = .ok configPath → parent configPath = some dir →
    H.serde.toVecPretty (defaultConfig (join dir "rule.json") (join dir "client_ids")) = .ok content →
      H.serde.fromSlice content = .ok (defaultRawConfig (join dir "rule.json") (join dir "client_ids"))
  rules : H.crates.ruleFileFromSlice defaultRuleJson.toUTF8.toList = .ok [defaultRule]
  space : H.crates.isWord ' ' = false
  sql : H.crates.parseSql "select * from \"#\"" = .ok [.query defaultQuery]
  name : H.crates.nameToString [⟨"#", some '"'⟩] = "\"#\""

section Normalize

variable {isWord : Char → Bool} {body : List Char → List Char → Option (List Char)}

-- a text without a match is passed over
theorem replaceFirst_before {rest : List Char} (before : List Char)
    (h : ∀ i < before.length, (matchFrom (before.drop i ++ rest)).bind (fun m ↦ body m.1 m.2) = none)
    (afterWord : Bool) :
    replaceFirst isWord body afterWord (before ++ rest) =
      before ++ replaceFirst isWord body ((before.getLast?.map isWord).getD afterWord) rest := by
  induction before generalizing afterWord with
  | nil => rfl
  | cons c cs ih =>
      have hfirst : (matchFrom (c :: (cs ++ rest))).bind (fun m ↦ body m.1 m.2) = none :=
        h 0 (Nat.zero_lt_succ _)
      have hskip : replaceFirst isWord body afterWord (c :: (cs ++ rest)) =
          c :: replaceFirst isWord body (isWord c) (cs ++ rest) := by
        rw [replaceFirst]
        cases afterWord with
        | false => simp only [Bool.false_eq_true, if_false, hfirst]
        | true => rfl
      show replaceFirst isWord body afterWord (c :: (cs ++ rest)) = _
      rw [hskip, ih fun i hi ↦ h (i + 1) (Nat.succ_lt_succ hi)]
      cases cs with
      | nil => rfl
      | cons d ds =>
          rw [List.getLast?_cons_cons, List.getLast?_eq_some_getLast (List.cons_ne_nil d ds)]
          rfl

theorem normalize_defaultRule (hspace : isWord ' ' = false) :
    normalizeRuleSql isWord defaultRule.expression = "select * from \"#\"" := by
  have hsplit : defaultRule.expression.toList = "select * ".toList ++ "from #".toList := by decide
  unfold normalizeRuleSql
  dsimp only
  -- the first replacement finds nothing, the second one its match behind `select * `
  rw [← List.append_nil defaultRule.expression.toList, replaceFirst_before, replaceFirst,
    List.append_nil, hsplit, replaceFirst_before]
  · show String.ofList ("select * ".toList ++
      replaceFirst isWord _ (isWord ' ') "from #".toList) = _
    rw [hspace]
    rfl
  · decide +kernel
  · decide +kernel

end Normalize

/-- The default rule compiles, to a rule that hands on what matches `#`. -/
theorem ReadsDefaults.exists_compiled {H : Host} {env : Environment} (h : ReadsDefaults H env) :
    ∃ compiled, compileRule H.crates defaultRule = .ok compiled ∧ compiled.topicFilter = "#" ∧
      Forwards compiled := by
  have htopic : normalizeTopic "\"#\"" = "#" := by decide +kernel
  have hparsed : parseQuery H.crates defaultQuery = .ok ("#", "#", .all, none) := by
    show Except.ok (normalizeTopic (H.crates.nameToString [⟨"#", some '"'⟩]),
      normalizeTopic (H.crates.nameToString [⟨"#", some '"'⟩]), SelectSpec.all, none) = _
    rw [h.name, htopic]
  have hcompile : compileRule H.crates defaultRule =
      compileParsed H.crates defaultRule "#" "#" .all none := by
    unfold compileRule
    rw [normalize_defaultRule h.space, h.sql]
    show (parseQuery H.crates defaultQuery >>= fun parsed ↦
      compileParsed H.crates defaultRule parsed.1 parsed.2.1 parsed.2.2.1 parsed.2.2.2) = _
    rw [hparsed]
    rfl
  rw [hcompile]
  exact ⟨_, rfl, rfl, rfl, rfl⟩

/-! ## The first start -/

section Launch

open FileProgram

variable {H : Host} {env : Environment} {s t : Files Place ByteArray}

theorem suffix_join (dir name : String) : name.toList <:+ (join dir name).toList := by
  unfold join
  split
  · rw [String.toList_append]
    exact List.suffix_append _ _
  · rw [String.toList_append]
    exact List.suffix_append _ _

theorem tenonHomeDir_ne {home : String} (h : env.tenonHomeDir = .ok home) : home ≠ "" := by
  unfold Environment.tenonHomeDir at h
  split at h
  · rename_i dir hdir
    cases h
    simpa using (Option.filter_eq_some_iff.mp hdir).2
  · cases huser : env.userHome with
    | error err =>
        rw [huser] at h
        cases h
    | ok user =>
        rw [huser] at h
        cases h
        intro hempty
        have hsuffix := suffix_join user ".tenon"
        change join user ".tenon" = "" at hempty
        rw [hempty] at hsuffix
        exact absurd (List.suffix_nil.mp hsuffix) (by decide)

theorem exists_configPath {configPath : String} (h : env.configPath = .ok configPath) :
    ∃ home, home ≠ "" ∧ configPath = join home "config.json" := by
  unfold Environment.configPath at h
  cases hhome : env.tenonHomeDir with
  | error err =>
      rw [hhome] at h
      cases h
  | ok home =>
      rw [hhome] at h
      cases h
      exact ⟨home, tenonHomeDir_ne hhome, rfl⟩

/-- The engine of the default rule file. -/
structure DefaultEngine (C : Crates) (engine : RuleEngine) : Prop where
  reachable : (engineSystem C .json defaultTopicCacheCapacity).Reachable engine
  rules : ∃ compiled, engine.rules = [some compiled] ∧ compiled.topicFilter = "#" ∧
    compiled.destinations = ["default_log"] ∧ Forwards compiled

theorem LoadedFrom.default (hreads : ReadsDefaults H env) {engine : RuleEngine}
    {ruleBytes : ByteArray} {defs : List RuleDefinition} (hbytes : ruleBytes = defaultRuleJson.toUTF8)
    (h : LoadedFrom H.crates ruleBytes defs engine) : DefaultEngine H.crates engine := by
  obtain ⟨compiled, hcompile, hfilter, hforwards⟩ := hreads.exists_compiled
  obtain ⟨hid, hbinding, hdestinations⟩ := compileRule_ok H.crates hcompile
  have hdefs : defs = [defaultRule] := by
    have hparsed := h.parsed
    rw [hbytes, hreads.rules] at hparsed
    exact (Except.ok.inj hparsed).symm
  obtain ⟨all, hcompiled, hrules⟩ := h.compiled
  rw [hdefs] at hcompiled
  have hall : all = [compiled] := by
    cases hcompiled with
    | cons hhead htail =>
        cases htail
        rw [hcompile] at hhead
        cases hhead
        rfl
  rw [hall] at hrules
  have hlive : liveRule engine.rules 0 = some compiled := by
    rw [hrules]
    rfl
  obtain ⟨decoder, hreach⟩ := h.reachable
  have hjson : decoder = .json := by
    by_contra hnot
    obtain ⟨schema, hschema⟩ := (wellFormed hreach).bound 0 compiled hlive hnot
    rw [hbinding] at hschema
    cases hschema
  exact ⟨hjson ▸ hreach, compiled, hrules, hfilter, hdestinations, hforwards⟩

end Launch

/-! ## What it does with a message -/

section Logging

variable {C : Crates} {fromUtf8Lossy : List UInt8 → String} {engine : RuleEngine} {capacity : Nat}

-- the line of the default log sink
def loggedLine (fromUtf8Lossy : List UInt8 → String) (delivery : IncomingDelivery) : ResultLine :=
  ⟨"default_log", 0, ["default_log"], delivery.message.topic, fromUtf8Lossy delivery.message.payload⟩

theorem DefaultEngine.results (h : DefaultEngine C engine) (order : HashOrder) (message : Message) :
    (engine.evaluate C order message).2.results = [⟨0, message⟩] := by
  obtain ⟨compiled, hrules, hfilter, -, hforwards⟩ := h.rules
  have hall : ForwardsAll engine.rules := by
    intro i rule hrule
    rw [hrules] at hrule
    cases i with
    | zero =>
        cases hrule
        exact hforwards
    | succ i => cases hrule
  have hmatched : matchedSlots engine.rules message = [0] := by
    have hmatch : matchTopic compiled.topicFilter message.topic = true := by
      rw [hfilter]
      rfl
    rw [hrules]
    show List.filter _ [0] = [0]
    exact List.filter_cons_of_pos hmatch
  have hresults : (engine.evaluate C order message).2.results.Perm
      ((matchedSlots engine.rules message).map fun i ↦ ⟨i, message⟩) :=
    results_of_forwardsAll (wellFormed h.reachable) (cachedOnce h.reachable) hall order message
  rw [hmatched] at hresults
  exact List.perm_singleton.mp hresults

theorem DefaultEngine.destinationsOf_zero (h : DefaultEngine C engine) :
    destinationsOf engine 0 = ["default_log"] := by
  obtain ⟨compiled, hrules, -, hdestinations, -⟩ := h.rules
  rw [destinationsOf, hrules]
  exact hdestinations

-- what a completed delivery hands to the sinks
def handedOn (delivery : IncomingDelivery) : RuleEvaluation × String :=
  (⟨0, delivery.message⟩, "default_log")

theorem DefaultEngine.evaluated (h : DefaultEngine C engine) {s : Pipeline capacity}
    (hs : (pipelineSystem C engine capacity).Reachable s) {delivery : IncomingDelivery}
    {results : List RuleEvaluation} (hlogged : .evaluated delivery results ∈ s.log) :
    results = [⟨0, delivery.message⟩] := by
  obtain ⟨current, order, hreach, hrules, hresults⟩ :=
    (evaluatedBy h.reachable hs).logged delivery results hlogged
  have hcurrent : DefaultEngine C current := ⟨hreach, hrules ▸ h.rules⟩
  rw [← hresults, hcurrent.results]

theorem SinksAccounted.logged {served : List IncomingDelivery} {sinks : Sinks}
    (h : SinksAccounted fromUtf8Lossy defaultSinks engine (served.map handedOn) sinks)
    (hengine : DefaultEngine C engine) :
    sinks = ⟨Sinks.init.metrics, served.map (loggedLine fromUtf8Lossy), []⟩ := by
  have hlog : defaultSinks.lookup "default_log" = some .log := rfl
  have hlines : sinks.lines = served.map (loggedLine fromUtf8Lossy) := by
    rw [h.lines, List.filterMap_map, ← List.filterMap_eq_map]
    apply List.filterMap_congr
    intro delivery _
    show lineFor fromUtf8Lossy defaultSinks engine (handedOn delivery) = _
    simp only [lineFor, handedOn, hlog, hengine.destinationsOf_zero]
    rfl
  have hrecords : sinks.records = [] := by
    have hnone : (served.map handedOn).filterMap (recordFor defaultSinks) = [] := by
      rw [List.filterMap_eq_nil_iff]
      intro pair hpair
      obtain ⟨delivery, -, rfl⟩ := List.mem_map.mp hpair
      simp only [recordFor, handedOn, hlog]
    rw [← h.records, List.map_eq_nil_iff] at hnone
    exact hnone
  have hnoop : sinks.metrics.noopSinkMessages = 0 := by
    rw [h.noop, List.countP_eq_zero]
    intro pair hpair
    obtain ⟨delivery, -, rfl⟩ := List.mem_map.mp hpair
    simp [isNoop, handedOn, hlog]
  have henqueued := h.enqueued
  have hfull := h.queueFull
  have hfailed := h.failed
  rw [hrecords] at henqueued hfull hfailed
  have hsupported := h.supported
  rcases sinks with ⟨⟨enqueued, full, failed, noop, unsupported⟩, lines, records⟩
  subst hlines hrecords hnoop henqueued hfull hfailed hsupported
  rfl

end Logging

-- what `to_vec_pretty` makes of the default configuration in `home`
def demoDefaultConfigText : String :=
  "\x7b
  \"client_ids_path\": \"home/client_ids\",
  \"metrics\": \x7b
    \"detailed_latency\": false
  \x7d,
  \"mqtt\": \x7b
    \"client_count\": 1,
    \"group_name\": \"tenon-oss\",
    \"host\": \"127.0.0.1\",
    \"port\": 1883
  \x7d,
  \"payload\": \x7b
    \"format\": \"json\"
  \x7d,
  \"rule_json_path\": \"home/rule.json\",
  \"sinks\": \x7b
    \"default_log\": \x7b
      \"type\": \"log\"
    \x7d
  \x7d
\x7d"

-- a host that refuses nothing, and whose formats are those of the default files
def demoFirstHost : Host :=
  { demoHost with
    serde :=
      { fromSlice := fun _ ↦ .ok (defaultRawConfig "home/rule.json" "home/client_ids")
        toVecPretty := fun _ ↦ .ok demoDefaultConfigText.toUTF8 }
    crates := { demoCrates with ruleFileFromSlice := fun _ ↦ .ok [defaultRule] } }

def demoFirstResult : EStateM.Result String (Files Place ByteArray) (Outcome demoFirstHost.rdkafka) :=
  (run demoFirstHost demoEnvironment).run fun _ ↦ none

-- the daemon of a start, after one delivery and a clean exit
def demoExitOf {K : Rdkafka} (C : Crates) (launch : Launch K) :
    Option (SinkDaemon launch.evalQueueCapacity) :=
  (sinkDaemonSystem C (fun _ ↦ "") launch.dispatcher launch.engine launch.evalQueueCapacity
    [.empty]).exec ⟨.init launch.engine [.empty], .init⟩ demoSinkExit

def demoFirstLines : EStateM.Result String (Files Place ByteArray) (Outcome demoFirstHost.rdkafka) →
    Option (List ResultLine)
  | .ok (.started launch) _ => (demoExitOf demoFirstHost.crates launch).map fun d ↦ d.sinks.lines
  | _ => none

theorem exists_demoFirst : ∃ launch t, demoFirstResult = .ok (.started launch) t ∧
    ∃ d, demoExitOf demoFirstHost.crates launch = some d ∧
      d.sinks.lines = [⟨"default_log", 0, ["default_log"], "t", ""⟩] := by
  have hlines : demoFirstLines demoFirstResult =
      some [⟨"default_log", 0, ["default_log"], "t", ""⟩] := by decide +kernel
  cases hrun : demoFirstResult with
  | error err t =>
      rw [hrun] at hlines
      cases hlines
  | ok outcome t =>
      rw [hrun] at hlines
      cases outcome with
      | usage program => cases hlines
      | version => cases hlines
      | started launch => exact ⟨launch, t, rfl, Option.map_eq_some_iff.mp hlines⟩

end Tenon.Oss
