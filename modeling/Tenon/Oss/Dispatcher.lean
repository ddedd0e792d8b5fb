import Mathlib.Data.Finset.Sort
import Tenon.Core.EngineOutcome
import Tenon.Oss.EvalPipeline

/-!
# Dispatcher — from rule results to the sinks of their destinations

The dispatcher is built once, from the configured sinks and the metadata of the rules.  It keeps a sink
for each destination some rule names and the metadata of each rule under its slot; a result is sent to
the sinks of its rule's destinations one after the other.
-/

open Tenon.Core Reasoning Reasoning.Transition

namespace Tenon.Oss

inductive SinkDefinition where
  | noop
  | log
  | kafka (bootstrapServers : List String) (topic : String) (properties : StringMap String)

abbrev SinkConfig := StringMap SinkDefinition

/-- The part of `rdkafka` the constructor of a sink relies on. -/
structure Rdkafka where
  Producer : Type
  -- `ClientConfig::create` on the settings
  create : StringMap String → Except String Producer

structure KafkaSink (K : Rdkafka) where
  destination : String
  bootstrapServers : List String
  topic : String
  properties : StringMap String
  producer : K.Producer

inductive BuiltInSink (K : Rdkafka) where
  | noop
  | log
  | kafka (sink : KafkaSink K)

def KafkaSink.new (K : Rdkafka) (destination : String) (bootstrapServers : List String)
    (topic : String) (properties : StringMap String) : Except String (KafkaSink K) :=
  if bootstrapServers = [] then
    .error ("sinks." ++ destination ++ ".bootstrap_servers must not be empty")
  else if topic = "" then .error ("sinks." ++ destination ++ ".topic must not be empty")
  else
    -- a property may set the servers again
    let clientConfig := properties ∪
      (∅ : StringMap String).insert "bootstrap.servers" (",".intercalate bootstrapServers)
    match K.create clientConfig with
    | .ok producer => .ok ⟨destination, bootstrapServers, topic, properties, producer⟩
    | .error err =>
        .error ("failed to create kafka producer for sink " ++ destination ++ ": " ++ err)

def BuiltInSink.new (K : Rdkafka) (destination : String) :
    SinkDefinition → Except String (BuiltInSink K)
  | .noop => .ok .noop
  | .log => .ok .log
  | .kafka bootstrapServers topic properties =>
      (KafkaSink.new K destination bootstrapServers topic properties).map .kafka

/-- What one call of `dispatch` does, in order. -/
inductive DispatchEvent (K : Rdkafka) where
  | sent (sink : BuiltInSink K) (destination : String) (ruleIndex : Nat) (message : Message)
      (metadata : RuleMetadata)
  | unknownRuleIndex (ruleIndex : Nat)
  | unsupportedDestination (destination : String) (ruleIndex : Nat)

structure Dispatcher (K : Rdkafka) where
  sinksByDestination : StringMap (BuiltInSink K)
  metadataByRuleIndex : AList fun _ : Nat ↦ RuleMetadata

/-- The order in which the constructor sees the elements of hash sets and hash maps. -/
structure DispatchOrder where
  destinations : Finset String → List String
  sinks : SinkConfig → List (String × SinkDefinition)
  hdestinations : ∀ s d, d ∈ destinations s ↔ d ∈ s
  hsinks : ∀ m, (sinks m).Perm (m.entries.map fun e ↦ (e.1, e.2))

def usedDestinations (ruleMetadata : List RuleMetadata) : Finset String :=
  (ruleMetadata.flatMap RuleMetadata.destinations).toFinset

-- the loop over the configured sinks; the unused ones are skipped
def buildSinks (K : Rdkafka) (used : Finset String) (built : StringMap (BuiltInSink K)) :
    List (String × SinkDefinition) → Except String (StringMap (BuiltInSink K))
  | [] => .ok built
  | (destination, definition) :: rest =>
      if destination ∈ used then
        match BuiltInSink.new K destination definition with
        | .ok sink => buildSinks K used (built.insert destination sink) rest
        | .error err => .error err
      else buildSinks K used built rest

namespace Dispatcher

variable {K : Rdkafka}

def new (K : Rdkafka) (order : DispatchOrder) (sinks : SinkConfig)
    (ruleMetadata : List RuleMetadata) : Except String (Dispatcher K) :=
  let used := usedDestinations ruleMetadata
  let missingDestinations := (order.destinations used).filter fun d ↦ (sinks.lookup d).isNone
  if missingDestinations ≠ [] then
    .error ("rule destinations are not configured as sinks: " ++
      ",".intercalate missingDestinations)
  else
    match buildSinks K used ∅ (order.sinks sinks) with
    | .error err => .error err
    | .ok sinksByDestination =>
        .ok {
          sinksByDestination := sinksByDestination
          metadataByRuleIndex := ruleMetadata.foldl (fun map m ↦ map.insert m.ruleIndex m) ∅ }

def dispatch (dispatcher : Dispatcher K) (ruleIndex : Nat) (message : Message) :
    List (DispatchEvent K) :=
  match dispatcher.metadataByRuleIndex.lookup ruleIndex with
  | none => [.unknownRuleIndex ruleIndex]
  | some metadata =>
      metadata.destinations.map fun destination ↦
        match dispatcher.sinksByDestination.lookup destination with
        | some sink => .sent sink destination ruleIndex message metadata
        | none => .unsupportedDestination destination ruleIndex

end Dispatcher

/-! ## The two maps of a dispatcher -/

theorem mem_ruleMetadata {engine : RuleEngine} {metadata : RuleMetadata} :
    metadata ∈ engine.ruleMetadata ↔ ∃ rule, liveRule engine.rules metadata.ruleIndex = some rule ∧
      metadata.destinations = rule.destinations := by
  unfold RuleEngine.ruleMetadata liveRule
  rw [List.mem_filterMap]
  constructor
  · intro h
    rcases h with ⟨⟨slot, index⟩, hslot, hsome⟩
    obtain ⟨rule, rfl, rfl⟩ := Option.map_eq_some_iff.mp hsome
    exact ⟨rule, by rw [List.mem_zipIdx_iff_getElem?.mp hslot]; rfl, rfl⟩
  · intro h
    rcases h with ⟨rule, hlive, hdestinations⟩
    have hslot := Option.join_eq_some_iff.mp hlive
    exact ⟨(some rule, metadata.ruleIndex), List.mem_zipIdx_iff_getElem?.mpr hslot, by
      rw [Option.map_some, ← hdestinations]⟩

theorem ruleMetadata_unique {engine : RuleEngine} {a b : RuleMetadata}
    (ha : a ∈ engine.ruleMetadata) (hb : b ∈ engine.ruleMetadata) (h : a.ruleIndex = b.ruleIndex) :
    a = b := by
  obtain ⟨rule, hrule, hdestinations⟩ := mem_ruleMetadata.mp ha
  obtain ⟨rule', hrule', hdestinations'⟩ := mem_ruleMetadata.mp hb
  rw [h, hrule'] at hrule
  cases hrule
  cases a
  cases b
  cases h
  cases hdestinations.trans hdestinations'.symm
  rfl

/-- Filling a map finds an entry under its key when no other entry has the key. -/
theorem lookup_insertAll {α β : Type} [DecidableEq α] (key : β → α) {b : β} {entries : List β}
    (hkey : ∀ a ∈ entries, key a = key b → a = b) (map : AList fun _ : α ↦ β)
    (hb : b ∈ entries ∨ map.lookup (key b) = some b) :
    (entries.foldl (fun map b ↦ map.insert (key b) b) map).lookup (key b) = some b := by
  induction entries generalizing map with
  | nil => exact hb.resolve_left List.not_mem_nil
  | cons a rest ih =>
      rw [List.foldl_cons]
      apply ih fun a' ha' ↦ hkey a' (List.mem_cons_of_mem _ ha')
      by_cases heq : key a = key b
      · right
        rw [hkey a List.mem_cons_self heq, AList.lookup_insert]
      · rcases hb with hmem | hlookup
        · left
          rcases List.mem_cons.mp hmem with rfl | hrest
          · exact absurd rfl heq
          · exact hrest
        · right
          rwa [AList.lookup_insert_ne (Ne.symm heq)]

section BuildSinks

variable {K : Rdkafka} {used : Finset String} {built sinks : StringMap (BuiltInSink K)}
  {entries : List (String × SinkDefinition)}

/-- Every used destination among the entries has a sink when all could be built. -/
theorem isSome_lookup_buildSinks (h : buildSinks K used built entries = .ok sinks)
    {destination : String} (hused : destination ∈ used)
    (hfound : (∃ definition, (destination, definition) ∈ entries) ∨
      (built.lookup destination).isSome) : (sinks.lookup destination).isSome := by
  induction entries generalizing built with
  | nil =>
      cases h
      exact hfound.resolve_left (by simp)
  | cons e rest ih =>
      rcases e with ⟨d, definition⟩
      rw [buildSinks] at h
      split at h
      · split at h
        · rename_i sink hsink
          apply ih h
          by_cases heq : destination = d
          · right
            rw [heq, AList.lookup_insert]
            rfl
          · rw [AList.lookup_insert_ne heq]
            simpa [heq] using hfound
        · cases h
      · rename_i hunused
        have hne : destination ≠ d := fun heq ↦ hunused (heq ▸ hused)
        apply ih h
        simpa [hne] using hfound

/-- A sink was built from an entry for its destination. -/
theorem exists_definition_of_buildSinks (h : buildSinks K used built entries = .ok sinks)
    {destination : String} {sink : BuiltInSink K} (hsink : sinks.lookup destination = some sink) :
    built.lookup destination = some sink ∨ ∃ definition, (destination, definition) ∈ entries ∧
      BuiltInSink.new K destination definition = .ok sink := by
  induction entries generalizing built with
  | nil =>
      cases h
      exact Or.inl hsink
  | cons e rest ih =>
      rcases e with ⟨d, definition⟩
      have hlater (hfound : ∃ definition, (destination, definition) ∈ rest ∧
            BuiltInSink.new K destination definition = .ok sink) :
          ∃ definition', (destination, definition') ∈ (d, definition) :: rest ∧
            BuiltInSink.new K destination definition' = .ok sink := by
        rcases hfound with ⟨definition', hmem, hnew⟩
        exact ⟨definition', List.mem_cons_of_mem _ hmem, hnew⟩
      rw [buildSinks] at h
      split at h
      · split at h
        · rename_i sink' hsink'
          rcases ih h with hbuilt | hfound
          · by_cases heq : destination = d
            · right
              rw [heq, AList.lookup_insert] at hbuilt
              cases hbuilt
              subst heq
              exact ⟨definition, List.mem_cons_self, hsink'⟩
            · rw [AList.lookup_insert_ne heq] at hbuilt
              exact Or.inl hbuilt
          · exact Or.inr (hlater hfound)
        · cases h
      · rcases ih h with hbuilt | hfound
        · exact Or.inl hbuilt
        · exact Or.inr (hlater hfound)

theorem exists_buildSinks (h : ∀ destination definition, (destination, definition) ∈ entries →
      destination ∈ used → ∃ sink, BuiltInSink.new K destination definition = .ok sink) :
    ∃ sinks, buildSinks K used built entries = .ok sinks := by
  induction entries generalizing built with
  | nil => exact ⟨built, rfl⟩
  | cons e rest ih =>
      rcases e with ⟨d, definition⟩
      have hrest (destination : String) (definition' : SinkDefinition)
          (hmem : (destination, definition') ∈ rest) :=
        h destination definition' (List.mem_cons_of_mem _ hmem)
      rw [buildSinks]
      by_cases hused : d ∈ used
      · obtain ⟨sink, hsink⟩ := h d definition List.mem_cons_self hused
        rw [if_pos hused, hsink]
        exact ih hrest
      · rw [if_neg hused]
        exact ih hrest

end BuildSinks

theorem mem_sinks (order : DispatchOrder) {sinks : SinkConfig} {destination : String}
    {definition : SinkDefinition} : (destination, definition) ∈ order.sinks sinks ↔
      sinks.lookup destination = some definition := by
  rw [(order.hsinks sinks).mem_iff, ← Option.mem_def, AList.mem_lookup_iff, List.mem_map]
  constructor
  · intro h
    rcases h with ⟨e, he, heq⟩
    cases heq
    exact he
  · exact fun h ↦ ⟨_, h, rfl⟩

section New

variable {K : Rdkafka} {order : DispatchOrder} {sinks : SinkConfig}
  {ruleMetadata : List RuleMetadata} {dispatcher : Dispatcher K}

/-- A dispatcher that could be built has, for every destination some rule names, the sink of its
definition. -/
theorem exists_sink (hnew : Dispatcher.new K order sinks ruleMetadata = .ok dispatcher)
    {metadata : RuleMetadata} (hmetadata : metadata ∈ ruleMetadata) {destination : String}
    (hd : destination ∈ metadata.destinations) :
    ∃ definition sink, sinks.lookup destination = some definition ∧
      BuiltInSink.new K destination definition = .ok sink ∧
      dispatcher.sinksByDestination.lookup destination = some sink := by
  have hused : destination ∈ usedDestinations ruleMetadata :=
    List.mem_toFinset.mpr (List.mem_flatMap.mpr ⟨metadata, hmetadata, hd⟩)
  simp only [Dispatcher.new] at hnew
  split at hnew
  · cases hnew
  · rename_i hmissing
    split at hnew
    · cases hnew
    · rename_i built hbuilt
      cases hnew
      -- no used destination is missing from the configuration
      have hconfigured : (sinks.lookup destination).isSome = true := by
        rw [not_not, List.filter_eq_nil_iff] at hmissing
        have hpresent := hmissing destination ((order.hdestinations _ _).mpr hused)
        simpa [Option.isSome_iff_ne_none] using hpresent
      obtain ⟨definition, hdefinition⟩ := Option.isSome_iff_exists.mp hconfigured
      have hsome := isSome_lookup_buildSinks hbuilt hused
        (Or.inl ⟨definition, (mem_sinks order).mpr hdefinition⟩)
      obtain ⟨sink, hsink⟩ := Option.isSome_iff_exists.mp hsome
      rcases exists_definition_of_buildSinks hbuilt hsink with hnone | ⟨definition', hmem, hbuild⟩
      · cases hnone
      · exact ⟨definition', sink, (mem_sinks order).mp hmem, hbuild, hsink⟩

/-- A dispatcher can be built when every destination some rule names is configured with a sink that can
be built. -/
theorem exists_new (h : ∀ destination ∈ usedDestinations ruleMetadata, ∃ definition sink,
      sinks.lookup destination = some definition ∧
      BuiltInSink.new K destination definition = .ok sink) :
    ∃ dispatcher, Dispatcher.new K order sinks ruleMetadata = .ok dispatcher := by
  have hmissing : ((order.destinations (usedDestinations ruleMetadata)).filter
      fun d ↦ (sinks.lookup d).isNone) = [] := by
    rw [List.filter_eq_nil_iff]
    intro d hd
    obtain ⟨definition, -, hdefinition, -⟩ := h d ((order.hdestinations _ _).mp hd)
    simp [hdefinition]
  have hbuilds (destination : String) (definition : SinkDefinition)
      (hmem : (destination, definition) ∈ order.sinks sinks)
      (hused : destination ∈ usedDestinations ruleMetadata) :
      ∃ sink, BuiltInSink.new K destination definition = .ok sink := by
    obtain ⟨definition', sink, hdefinition, hsink⟩ := h destination hused
    rw [mem_sinks, hdefinition] at hmem
    cases hmem
    exact ⟨sink, hsink⟩
  have hall : ∃ built, buildSinks K (usedDestinations ruleMetadata) ∅ (order.sinks sinks) =
      .ok built := exists_buildSinks hbuilds
  rcases hall with ⟨built, hbuilt⟩
  simp only [Dispatcher.new, hmissing, hbuilt]
  exact ⟨_, rfl⟩

theorem metadataByRuleIndex_eq (hnew : Dispatcher.new K order sinks ruleMetadata = .ok dispatcher) :
    dispatcher.metadataByRuleIndex = ruleMetadata.foldl (fun map m ↦ map.insert m.ruleIndex m) ∅ := by
  simp only [Dispatcher.new] at hnew
  split at hnew
  · cases hnew
  · split at hnew
    · cases hnew
    · cases hnew
      rfl

end New

/-! ## Every result reaches its destinations -/

/-- The events are one send for each listed destination, in order, each to the sink that the
configuration defines for the destination. -/
def ReachesAll {K : Rdkafka} (sinks : SinkConfig) (ruleIndex : Nat) (message : Message)
    (destinations : List String) (events : List (DispatchEvent K)) : Prop :=
  List.Forall₂ (fun destination event ↦ ∃ definition sink,
      sinks.lookup destination = some definition ∧
      BuiltInSink.new K destination definition = .ok sink ∧
      event = .sent sink destination ruleIndex message ⟨ruleIndex, destinations⟩)
    destinations events

theorem reachesAll_dispatch {K : Rdkafka} {order : DispatchOrder} {sinks : SinkConfig}
    {engine : RuleEngine} {dispatcher : Dispatcher K}
    (hnew : Dispatcher.new K order sinks engine.ruleMetadata = .ok dispatcher) {ruleIndex : Nat}
    {rule : CompiledRule} (hlive : liveRule engine.rules ruleIndex = some rule)
    (message : Message) :
    ReachesAll sinks ruleIndex message rule.destinations (dispatcher.dispatch ruleIndex message) := by
  have hmetadata : (⟨ruleIndex, rule.destinations⟩ : RuleMetadata) ∈ engine.ruleMetadata :=
    mem_ruleMetadata.mpr ⟨rule, hlive, rfl⟩
  have hlookup : dispatcher.metadataByRuleIndex.lookup ruleIndex =
      some ⟨ruleIndex, rule.destinations⟩ := by
    rw [metadataByRuleIndex_eq hnew]
    exact lookup_insertAll RuleMetadata.ruleIndex (b := ⟨ruleIndex, rule.destinations⟩)
      (fun a ha heq ↦ ruleMetadata_unique ha hmetadata heq) ∅ (Or.inl hmetadata)
  unfold ReachesAll Dispatcher.dispatch
  rw [hlookup, List.forall₂_map_right_iff, List.forall₂_same]
  intro destination hd
  obtain ⟨definition, sink, hdefinition, hbuild, hsink⟩ := exists_sink hnew hmetadata hd
  exact ⟨definition, sink, hdefinition, hbuild, by rw [hsink]⟩

/-- With a dispatcher built on the metadata of an engine, every result of an evaluation under the same
rules belongs to a live rule and is sent to all destinations of that rule. -/
theorem results_reach_destinations (C : Crates) (K : Rdkafka) {order : DispatchOrder}
    {sinks : SinkConfig} {engine running : RuleEngine} {dispatcher : Dispatcher K}
    (hnew : Dispatcher.new K order sinks engine.ruleMetadata = .ok dispatcher)
    (hrules : running.rules = engine.rules) (hashOrder : HashOrder) (message : Message) :
    ∀ result ∈ (running.evaluate C hashOrder message).2.results,
      ∃ rule, liveRule engine.rules result.ruleIndex = some rule ∧
        ReachesAll sinks result.ruleIndex result.message rule.destinations
          (dispatcher.dispatch result.ruleIndex result.message) := by
  intro result hresult
  obtain ⟨rule, hlive⟩ := live_of_mem_results C message hresult
  rw [hrules] at hlive
  exact ⟨rule, hlive, reachesAll_dispatch hnew hlive result.message⟩

-- sets in increasing order, maps in the order they were filled
def DispatchOrder.increasing : DispatchOrder where
  destinations s := s.sort
  sinks m := m.entries.map fun e ↦ (e.1, e.2)
  hdestinations s d := Finset.mem_sort _
  hsinks m := List.Perm.refl _

-- accepts every configuration
def demoRdkafka : Rdkafka where
  Producer := Unit
  create _ := .ok ()

-- one rule with a destination listed twice
def demoSinkEngine : RuleEngine :=
  ((RuleEngine.newWithCacheCapacity .json 1).addRule demoCrates
    ⟨selectAll "t", ["audit", "raw", "audit"], none⟩).1

def demoSinks : SinkConfig :=
  ((∅ : SinkConfig).insert "audit" .log).insert "raw" (.kafka ["localhost:9092"] "out" ∅)

theorem results_reach_destinations_demo :
    ∃ dispatcher, Dispatcher.new demoRdkafka .increasing demoSinks demoSinkEngine.ruleMetadata =
        .ok dispatcher ∧
      (demoSinkEngine.evaluate demoCrates .increasing (Message.new "t" [])).2.results ≠ [] ∧
      ∀ result ∈ (demoSinkEngine.evaluate demoCrates .increasing (Message.new "t" [])).2.results,
        ∃ rule, liveRule demoSinkEngine.rules result.ruleIndex = some rule ∧
          ReachesAll demoSinks result.ruleIndex result.message rule.destinations
            (dispatcher.dispatch result.ruleIndex result.message) := by
  have hbuilds : ∀ destination ∈ usedDestinations demoSinkEngine.ruleMetadata, ∃ definition sink,
      demoSinks.lookup destination = some definition ∧
      BuiltInSink.new demoRdkafka destination definition = .ok sink := by
    intro destination hd
    have hused : destination ∈ ["audit", "raw", "audit"] := List.mem_toFinset.mp hd
    simp only [List.mem_cons, List.not_mem_nil, or_false] at hused
    rcases hused with rfl | rfl | rfl
    · exact ⟨.log, .log, rfl, rfl⟩
    · exact ⟨.kafka ["localhost:9092"] "out" ∅, _, rfl, rfl⟩
    · exact ⟨.log, .log, rfl, rfl⟩
  have hbuilt : ∃ dispatcher, Dispatcher.new demoRdkafka .increasing demoSinks
      demoSinkEngine.ruleMetadata = .ok dispatcher := exists_new hbuilds
  rcases hbuilt with ⟨dispatcher, hnew⟩
  have hfires : (demoSinkEngine.evaluate demoCrates .increasing (Message.new "t" [])).2.results ≠ [] := by
    decide
  exact ⟨dispatcher, hnew, hfires, results_reach_destinations demoCrates demoRdkafka hnew rfl
    .increasing (Message.new "t" [])⟩

/-! ## Every dispatch of the worker -/

section Worker

variable {capacity : Nat}

-- the results the worker has yet to dispatch
def WorkerPhase.pending : WorkerPhase → List RuleEvaluation
  | .evaluated _ results => results
  | .dispatching _ rest => rest
  | _ => []

/-- Every dispatch in the log is for a live rule. -/
def DispatchedLive (engine : RuleEngine) (log : List WorkerEvent) : Prop :=
  ∀ ruleIndex message, .dispatched ruleIndex message ∈ log →
    ∃ rule, liveRule engine.rules ruleIndex = some rule

/-- The rules are those of `engine`, and the results dispatched and to dispatch belong to live ones. -/
structure LiveResults (engine : RuleEngine) (s : Pipeline capacity) : Prop where
  rules : s.engine.rules = engine.rules
  pending : ∀ result ∈ s.worker.pending, ∃ rule, liveRule engine.rules result.ruleIndex = some rule
  dispatched : DispatchedLive engine s.log

variable {C : Crates} {engine : RuleEngine} {s t : Pipeline capacity}

theorem DispatchedLive.concat {log : List WorkerEvent} (h : DispatchedLive engine log)
    {event : WorkerEvent} (hevent : ∀ ruleIndex message, event = .dispatched ruleIndex message →
      ∃ rule, liveRule engine.rules ruleIndex = some rule) :
    DispatchedLive engine (log ++ [event]) := by
  intro ruleIndex message hmem
  rcases List.mem_append.mp hmem with hold | hnew
  · exact h ruleIndex message hold
  · exact hevent ruleIndex message (List.mem_singleton.mp hnew).symm

theorem LiveResults.workerStep (h : LiveResults engine s) {action : WorkerAction}
    (hstep : s.workerStep C action = some t) : LiveResults engine t := by
  have hpending := h.pending
  cases workerStep_cases hstep with
  | evaluate order delivery hworker running results hengine hresults =>
      have hrules : running.rules = engine.rules := by
        rw [← hengine, RuleEngine.evaluate_rules, h.rules]
      have hlive : ∀ result ∈ results,
          ∃ rule, liveRule engine.rules result.ruleIndex = some rule := by
        intro result hresult
        rw [← hresults] at hresult
        obtain ⟨rule, hrule⟩ := live_of_mem_results C delivery.message hresult
        exact ⟨rule, h.rules ▸ hrule⟩
      exact ⟨hrules, hlive, h.dispatched.concat nofun⟩
  | ack delivery results hworker =>
      rw [hworker] at hpending
      exact ⟨h.rules, hpending, h.dispatched.concat nofun⟩
  | dispatch delivery result rest hworker =>
      rw [hworker] at hpending
      obtain ⟨hfirst, hrest⟩ := List.forall_mem_cons.mp hpending
      have hevent (ruleIndex : Nat) (message : Message)
          (heq : WorkerEvent.dispatched result.ruleIndex result.message =
            .dispatched ruleIndex message) :
          ∃ rule, liveRule engine.rules ruleIndex = some rule := by
        cases heq
        exact hfirst
      exact ⟨h.rules, hrest, h.dispatched.concat hevent⟩
  | _ => exact ⟨h.rules, nofun, h.dispatched⟩

/-- In every run of the pipeline on the engine whose metadata the dispatcher was built on, everything
the worker dispatches reaches all destinations of its rule. -/
theorem worker_reaches_destinations {K : Rdkafka} {order : DispatchOrder} {sinks : SinkConfig}
    {dispatcher : Dispatcher K}
    (hnew : Dispatcher.new K order sinks engine.ruleMetadata = .ok dispatcher)
    (h : (pipelineSystem C engine capacity).Reachable s) {ruleIndex : Nat} {message : Message}
    (hlogged : .dispatched ruleIndex message ∈ s.log) :
    ∃ rule, liveRule engine.rules ruleIndex = some rule ∧
      ReachesAll sinks ruleIndex message rule.destinations
        (dispatcher.dispatch ruleIndex message) := by
  have hinit : LiveResults engine (.init engine : Pipeline capacity) := ⟨rfl, nofun, nofun⟩
  have hresults : LiveResults engine s := by
    apply h.invariant hinit
    intro s action t hs hstep
    cases action with
    | handler action =>
        have hhandler : s.handlerStep action = some t := hstep
        cases handlerStep_cases hhandler <;> exact ⟨hs.rules, hs.pending, hs.dispatched⟩
    | worker action => exact hs.workerStep hstep
    | forceShutdown =>
        cases hstep
        exact ⟨hs.rules, hs.pending, hs.dispatched⟩
  obtain ⟨rule, hlive⟩ := hresults.dispatched ruleIndex message hlogged
  exact ⟨rule, hlive, reachesAll_dispatch hnew hlive message⟩

end Worker

end Tenon.Oss
