import Mathlib.Data.List.DropRight
import Tenon.Core.Json
import Tenon.Oss.Dispatcher
import Tenon.Reasoning.Files

/-!
# Config — the configuration file, where it is, and the command line

Fields that the file leaves out take their defaults; the path of the client ids is trimmed.  On a first
start a default configuration and a default rule are written next to each other.
-/

open Tenon.Core Reasoning

namespace Tenon.Oss

/-! ## The fields of the file -/

-- a section as it stands in the file, `none` for a field that is left out
structure RawPayloadConfig where
  format : Option String
  protobufDescriptorSetPath : Option String

structure RawMqttConfig where
  nodeId : Option String
  clientCount : Option UInt16
  groupName : Option String
  ordered : Option Bool
  orderedPrefix : Option String
  queueCapacity : Option UInt16

structure RawConfig where
  ruleJsonPath : String
  clientIdsPath : Option String
  payload : Option RawPayloadConfig
  mqtt : Option RawMqttConfig
  sinks : Option SinkConfig

structure PayloadConfig where
  format : String
  protobufDescriptorSetPath : Option String

/-- The fields that decide what the daemon does; the others go to the connection as they are. -/
structure MqttOssConfig where
  nodeId : Option String
  clientCount : UInt16
  groupName : String
  ordered : Bool
  orderedPrefix : String
  queueCapacity : UInt16

structure OssConfig where
  ruleJsonPath : String
  clientIdsPath : String
  payload : PayloadConfig
  mqtt : MqttOssConfig
  sinks : SinkConfig

def defaultClientIdsPath : String := "./client_ids"

def defaultPayloadFormat : String := "json"

def defaultClientCount : UInt16 := 1

def defaultGroupName : String := "tenon-oss"

def defaultQueueCapacity : UInt16 := 4096

namespace PayloadConfig

protected def default : PayloadConfig := ⟨defaultPayloadFormat, none⟩

def ofRaw (raw : RawPayloadConfig) : PayloadConfig :=
  ⟨raw.format.getD defaultPayloadFormat, raw.protobufDescriptorSetPath⟩

end PayloadConfig

namespace MqttOssConfig

protected def default : MqttOssConfig where
  nodeId := none
  clientCount := defaultClientCount
  groupName := defaultGroupName
  ordered := false
  orderedPrefix := ""
  queueCapacity := defaultQueueCapacity

def ofRaw (raw : RawMqttConfig) : MqttOssConfig where
  nodeId := raw.nodeId
  clientCount := raw.clientCount.getD defaultClientCount
  groupName := raw.groupName.getD defaultGroupName
  ordered := raw.ordered.getD false
  orderedPrefix := raw.orderedPrefix.getD ""
  queueCapacity := raw.queueCapacity.getD defaultQueueCapacity

end MqttOssConfig

namespace OssConfig

def ofRaw (raw : RawConfig) : OssConfig where
  ruleJsonPath := raw.ruleJsonPath
  clientIdsPath := raw.clientIdsPath.getD defaultClientIdsPath
  payload := (raw.payload.map .ofRaw).getD .default
  mqtt := (raw.mqtt.map .ofRaw).getD .default
  sinks := raw.sinks.getD ∅

def normalize (config : OssConfig) : OssConfig :=
  let clientIdsPath := String.ofList (trim config.clientIdsPath.toList)
  { config with
    clientIdsPath := if clientIdsPath = "" then defaultClientIdsPath else clientIdsPath }

end OssConfig

/-- A section that is left out is the section without fields. -/
theorem ofRaw_left_out (raw : RawConfig) :
    OssConfig.ofRaw raw = OssConfig.ofRaw
      { raw with
        payload := some (raw.payload.getD ⟨none, none⟩)
        mqtt := some (raw.mqtt.getD ⟨none, none, none, none, none, none⟩) } := by
  rcases raw with ⟨rulePath, idsPath, payload, mqtt, sinks⟩
  cases payload <;> cases mqtt <;> rfl

/-! ## Paths -/

-- `Path::join` with a relative name
def join (dir name : String) : String :=
  if dir = "" ∨ dir.toList.getLast? = some '/' then dir ++ name else dir ++ "/" ++ name

-- the part of a path before its named components: the root, or the `.` that a relative path begins with
def pathStart : List Char → List Char
  | '/' :: _ => ['/']
  | ['.'] => ['.']
  | '.' :: '/' :: _ => ['.']
  | _ => []

-- components that stand for nothing: between repeated separators, and `.`
def isSilent (component : List Char) : Bool := component = [] ∨ component = ['.']

/-- `Path::parent`: the path without its last component, and without separators and `.` at the new end. -/
def parent (path : String) : Option String :=
  let start := pathStart path.toList
  let components := ((path.toList.drop start.length).splitOn '/').rdropWhile isSilent
  if components = [] then (if start = ['.'] then some "" else none)
  else
    some (String.ofList
      (start ++ ['/'].intercalate (components.dropLast.rdropWhile isSilent)))

example : parent "/home/u/./.tenon//config.json" = some "/home/u/./.tenon" := by decide +kernel

example : parent "/a/./config.json" = some "/a" ∧ parent "./client_ids" = some "." ∧
    parent "client_ids" = some "" ∧ parent "/" = none := by decide +kernel

/-- What a start finds in its environment. -/
structure Environment where
  tenonHome : Option String
  home : Option String
  args : List String
  pid : UInt32
  -- since the epoch; `0` when the clock is before it
  millis : UInt64

namespace Environment

def userHome (env : Environment) : Except String String :=
  match env.home.filter (· ≠ "") with
  | some home => .ok home
  | none => .error "HOME is not set"

def tenonHomeDir (env : Environment) : Except String String :=
  match env.tenonHome.filter (· ≠ "") with
  | some home => .ok home
  | none => env.userHome.map (join · ".tenon")

def logDir (env : Environment) : Except String String :=
  env.tenonHomeDir.map (join · "log")

def configPath (env : Environment) : Except String String :=
  env.tenonHomeDir.map (join · "config.json")

def generateDefaultNodeId (env : Environment) : String :=
  "tenon_oss_" ++ toString env.pid ++ "_" ++ toString env.millis

end Environment

/-! ## The command line -/

inductive CliCommand where
  | run (configPath : String)
  | help (program : String)
  | version
  deriving DecidableEq

-- only the first argument is looked at, and the one after `-c`
def parseCli (args : List String) (defaultPath : String) : Except String CliCommand :=
  let program := args.head?.getD "tenon-oss"
  match args[1]? with
  | some arg =>
      if arg = "-c" ∨ arg = "--config" then
        match args[2]? with
        | some path => .ok (.run path)
        | none => .error "missing value for -c/--config"
      else if arg = "-h" ∨ arg = "--help" then .ok (.help program)
      else if arg = "--version" then .ok .version
      else .error ("unknown argument: " ++ arg)
  -- whether the file is there or not
  | none => .ok (.run defaultPath)

/-! ## The first start -/

-- the canonical path of a file, whatever spelling, link or working directory leads there
abbrev Place := String

abbrev OssDisk := Disk String Place ByteArray String

abbrev OssProgram := FileProgram Place ByteArray String

-- `map_err`
def mapErr {α : Type} (f : String → String) (m : OssProgram α) : OssProgram α :=
  EStateM.adaptExcept f m

def ofExcept {α : Type} : Except String α → OssProgram α
  | .ok a => pure a
  | .error err => throw err

def defaultRuleJson : String :=
  "\x7b
      \"rules\": [
        \x7b
          \"expression\": \"select * from #\",
          \"destinations\": [\"default_log\"]
        \x7d
      ]
\x7d
"

def defaultConfig (rulePath clientIdsPath : String) : JsonValue :=
  .object (JsonMap.collect [
    ("rule_json_path", .string rulePath),
    ("client_ids_path", .string clientIdsPath),
    ("payload", .object (JsonMap.collect [("format", .string "json")])),
    ("mqtt", .object (JsonMap.collect [
      ("host", .string "127.0.0.1"),
      ("port", .number (.fromU64 1883)),
      ("client_count", .number (.fromU64 1)),
      ("group_name", .string "tenon-oss")])),
    ("sinks", .object (JsonMap.collect [
      ("default_log", .object (JsonMap.collect [("type", .string "log")]))])),
    ("metrics", .object (JsonMap.collect [("detailed_latency", .bool false)]))])

/-- The functions of `serde_json` the configuration goes through. -/
structure Serde where
  fromSlice : ByteArray → Except String RawConfig
  toVecPretty : JsonValue → Except String ByteArray

section Provision

variable (S : Serde) (disk : OssDisk)

def provisionDefaultConfigIfMissing (path : String) : OssProgram Unit := do
  if ← disk.isFile path then return ()
  else
    match (parent path).filter (· ≠ "") with
    | none => throw ("invalid config path: " ++ path)
    | some configDir =>
        mapErr ("failed to create config dir " ++ configDir ++ ": " ++ ·) (disk.createDir configDir)
        let rulePath := join configDir "rule.json"
        mapErr ("failed to provision rule " ++ rulePath ++ ": " ++ ·)
          (disk.writeIfMissing rulePath defaultRuleJson.toUTF8)
        let clientIdsPath := join configDir "client_ids"
        let content ← mapErr ("failed to serialize default config: " ++ ·)
          (ofExcept (S.toVecPretty (defaultConfig rulePath clientIdsPath)))
        mapErr ("failed to provision config " ++ path ++ ": " ++ ·) (disk.write path content)

def loadConfig (path : String) : OssProgram OssConfig := do
  let content ← mapErr ("failed to read config " ++ path ++ ": " ++ ·) (disk.read path)
  mapErr ("failed to parse config " ++ path ++ ": " ++ ·)
    (ofExcept ((S.fromSlice content).map fun raw ↦ (OssConfig.ofRaw raw).normalize))

theorem ofExcept_eq_ok {α : Type} {x : Except String α} {a : α} {s t : Files Place ByteArray} :
    (ofExcept x).run s = .ok a t ↔ x = .ok a ∧ t = s := by
  cases x with
  | error err => exact ⟨nofun, nofun⟩
  | ok b =>
      constructor
      · intro h
        cases h
        exact ⟨rfl, rfl⟩
      · intro h
        rcases h with ⟨heq, rfl⟩
        cases heq
        rfl

open FileProgram in
/-- The configuration is the content of the file, with the defaults, and reading it changes nothing. -/
theorem loadConfig_eq_ok {path : String} {config : OssConfig} {s t : Files Place ByteArray}
    (h : (loadConfig S disk path).run s = .ok config t) :
    t = s ∧ ∃ content raw, s (disk.resolve path) = some content ∧ S.fromSlice content = .ok raw ∧
      config = (OssConfig.ofRaw raw).normalize := by
  obtain ⟨content, u, hread, hparsing⟩ := bind_eq_ok.mp h
  obtain ⟨rfl, hcontent⟩ := read_eq_ok disk (run_mapErr_ok_iff.mp hread)
  obtain ⟨hparsed, rfl⟩ := ofExcept_eq_ok.mp (run_mapErr_ok_iff.mp hparsing)
  refine ⟨rfl, content, ?_⟩
  cases hraw : S.fromSlice content with
  | error err =>
      rw [hraw] at hparsed
      cases hparsed
  | ok raw =>
      rw [hraw] at hparsed
      cases hparsed
      exact ⟨raw, hcontent, rfl, rfl⟩

end Provision

end Tenon.Oss
