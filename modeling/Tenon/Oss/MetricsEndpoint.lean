import Tenon.Core.StageMetrics
import Tenon.Reasoning.Binary64
import Tenon.Reasoning.Scan

/-!
# MetricsEndpoint — scraping the metrics while evaluations record them

Evaluations record into atomic cells, one write after the other, while the thread of the endpoint loads
the cells one by one, publishes them and serves what it has published.  A scrape mixes the cells of
different moments; while no cell has wrapped around, each of its values lies between the cell at its
start and at its end.
-/

open Tenon.Core Reasoning Reasoning.Binary64 Reasoning.Transition Reasoning.Interleaving

namespace Tenon.Oss

/-! ## The cells and the records -/

inductive CountCell where
  | evals
  | evalErrors
  | evalTypeErrors
  | payloadErrors (kind : PayloadErrorKind)
  | stageCount (stage : LatencyStage)
  | stageNanos (stage : LatencyStage)
  deriving DecidableEq

inductive MetricCell where
  | count (cell : CountCell)
  | stageMax (stage : LatencyStage)
  deriving DecidableEq

/-- The atomic cells behind `EvalMetrics`. -/
@[ext]
structure EvalCells where
  counts : CountCell → UInt64
  maxima : LatencyStage → UInt64

def EvalCells.get (cells : EvalCells) : MetricCell → UInt64
  | .count cell => cells.counts cell
  | .stageMax stage => cells.maxima stage

/-- One atomic write; the exchanges that fail change nothing. -/
inductive CellWrite where
  | add (cell : CountCell) (n : UInt64)
  | raise (stage : LatencyStage) (nanos : UInt64)

-- a count wraps around
def CellWrite.apply (cells : EvalCells) : CellWrite → EvalCells
  | .add cell n => { cells with counts := Function.update cells.counts cell (cells.counts cell + n) }
  | .raise stage nanos =>
      { cells with maxima := Function.update cells.maxima stage (max nanos (cells.maxima stage)) }

inductive RecordCall where
  | evalSuccess
  | evalError (isTypeError : Bool)
  | payloadError (kind : PayloadErrorKind)
  | finishStage (stage : LatencyStage) (nanos : UInt64)

def RecordCall.writes : RecordCall → List CellWrite
  | .evalSuccess => [.add .evals 1]
  | .evalError false => [.add .evals 1, .add .evalErrors 1]
  | .evalError true => [.add .evals 1, .add .evalErrors 1, .add .evalTypeErrors 1]
  | .payloadError kind => [.add (.payloadErrors kind) 1]
  | .finishStage stage nanos =>
      [.add (.stageCount stage) 1, .add (.stageNanos stage) nanos, .raise stage nanos]

/-- A record under way. -/
structure CellRecorder where
  call : RecordCall
  written : List CellWrite
  rest : List CellWrite
  hwrites : written ++ rest = call.writes

def CellRecorder.step (cells : EvalCells) : CellRecorder → Option (EvalCells × CellRecorder)
  | ⟨_, _, [], _⟩ => none
  | ⟨call, written, write :: rest, h⟩ =>
      some (write.apply cells, ⟨call, written ++ [write], rest, by rw [List.append_assoc]; exact h⟩)

/-- Any number of records, each making its writes in order. -/
def recording : Program EvalCells CellRecorder RecordCall Unit where
  call call := ⟨call, [], call.writes, rfl⟩
  step cells _ recorder := recorder.step cells

/-! ## The endpoint -/

inductive Route where
  | metrics
  | health
  | notFound

-- by the start of the request, of which at most 1024 bytes are read
def route (request : String) : Route :=
  let starts (path : String) := path.toList.isPrefixOf request.toList
  if starts "GET /metrics " || starts "GET /metrics?" then .metrics
  else if starts "GET /health " || starts "GET /health?" then .health
  else .notFound

def stages : List LatencyStage := [.topicMatch, .payloadDecode, .msgIrBuild, .predicate, .projection]

/-- The order in which `snapshot` loads the cells. -/
def snapshotOrder : List MetricCell :=
  [.count .evals, .count .evalErrors, .count .evalTypeErrors, .count (.payloadErrors .schema),
    .count (.payloadErrors .decode), .count (.payloadErrors .build)] ++
  stages.flatMap fun stage ↦ [.count (.stageCount stage), .count (.stageNanos stage), .stageMax stage]

def latencyName : LatencyStage → String
  | .topicMatch => "tenon_topic_match_latency"
  | .payloadDecode => "tenon_payload_decode_latency"
  | .msgIrBuild => "tenon_msg_ir_build_latency"
  | .predicate => "tenon_predicate_latency"
  | .projection => "tenon_projection_latency"

def CountCell.name : CountCell → String
  | .evals => "tenon_evals_total"
  | .evalErrors => "tenon_eval_errors_total"
  | .evalTypeErrors => "tenon_eval_type_errors_total"
  | .payloadErrors .schema => "tenon_payload_schema_errors_total"
  | .payloadErrors .decode => "tenon_payload_decode_errors_total"
  | .payloadErrors .build => "tenon_payload_build_errors_total"
  | .stageCount stage => latencyName stage ++ "_samples_total"
  | .stageNanos stage => latencyName stage ++ "_nanos_total"

def maxName (stage : LatencyStage) : String := latencyName stage ++ "_max_nanos"

/-- The recorder behind the macros of the `metrics` crate: counters and gauges, by their names. -/
structure MetricsRecorder (ρ : Type) where
  installed : ρ
  absolute : ρ → String → UInt64 → ρ
  set : ρ → String → F64 → ρ
  counter : ρ → String → UInt64
  gauge : ρ → String → F64

/-- `absolute` sets a counter to at least the value and `set` sets a gauge to it; both leave alone what
has another name, and a counter that nothing has set is zero. -/
structure MetricsRecorder.Documented {ρ : Type} (M : MetricsRecorder ρ) : Prop where
  counter_installed : ∀ name, M.counter M.installed name = 0
  counter_absolute : ∀ r name value,
    M.counter (M.absolute r name value) name = max (M.counter r name) value
  counter_other : ∀ r name value other, other ≠ name →
    M.counter (M.absolute r name value) other = M.counter r other
  counter_set : ∀ r name x other, M.counter (M.set r name x) other = M.counter r other
  gauge_set : ∀ r name x, M.gauge (M.set r name x) name = x
  gauge_other : ∀ r name x other, other ≠ name → M.gauge (M.set r name x) other = M.gauge r other
  gauge_absolute : ∀ r name value other, M.gauge (M.absolute r name value) other = M.gauge r other

/-- What a scrape serves, and the cells at its start and at its end. -/
structure Scrape where
  start : MetricCell → UInt64
  counters : CountCell → UInt64
  gauges : LatencyStage → F64
  finish : MetricCell → UInt64

inductive ServerPhase where
  | accepting
  | loading (scan : Scan MetricCell UInt64)

structure Endpoint (ρ : Type) where
  records : State EvalCells CellRecorder
  server : ServerPhase
  recorder : ρ
  -- the scrapes served so far, which no step reads
  scrapes : List Scrape

inductive EndpointAction where
  | record (move : Move RecordCall Unit)
  | connect (request : String)
  | load
  | publish

section Endpoint

variable {ρ : Type} (M : MetricsRecorder ρ)

-- `max_nanos as f64`
def publishCell (r : ρ) : MetricCell × UInt64 → ρ
  | (.count cell, value) => M.absolute r cell.name value
  | (.stageMax stage, value) => M.set r (maxName stage) (F64.ofNat value.toNat)

def publishEvalMetrics (r : ρ) (current : List (MetricCell × UInt64)) : ρ :=
  current.foldl (publishCell M) r

/-- What is rendered once the snapshot is published. -/
def Scrape.rendered (r : ρ) (start finish : MetricCell → UInt64) : Scrape where
  start := start
  counters cell := M.counter r cell.name
  gauges stage := M.gauge r (maxName stage)
  finish := finish

namespace Endpoint

def init : Endpoint ρ := ⟨⟨⟨fun _ ↦ 0, fun _ ↦ 0⟩, []⟩, .accepting, M.installed, []⟩

-- a request for another path is answered at once
def connect (s : Endpoint ρ) (request : String) : Option (Endpoint ρ) :=
  match s.server, route request with
  | .accepting, .metrics =>
      some { s with server := .loading (Scan.begin s.records.shared.get snapshotOrder) }
  | .accepting, _ => some s
  | .loading _, _ => none

def load (s : Endpoint ρ) : Option (Endpoint ρ) :=
  match s.server with
  | .accepting => none
  | .loading scan => (scan.read s.records.shared.get).map fun next ↦ { s with server := .loading next }

def publishLoaded (s : Endpoint ρ) : Option (Endpoint ρ) :=
  match s.server with
  | .loading ⟨start, taken, []⟩ =>
      some { s with
        server := .accepting
        recorder := publishEvalMetrics M s.recorder taken
        scrapes := s.scrapes ++
          [.rendered M (publishEvalMetrics M s.recorder taken) start s.records.shared.get] }
  | _ => none

def step (s : Endpoint ρ) : EndpointAction → Option (Endpoint ρ)
  | .record move => (recording.move s.records move).map fun records ↦ { s with records := records }
  | .connect request => s.connect request
  | .load => s.load
  | .publish => s.publishLoaded M

end Endpoint

def endpointSystem : System (Endpoint ρ) EndpointAction := ⟨.init M, Endpoint.step M⟩

end Endpoint

/-! ## What the records put into the cells -/

/-- What writes add up to, counted without end. -/
@[ext]
structure EvalTotals where
  counts : CountCell → Nat
  maxima : LatencyStage → UInt64

namespace EvalTotals

instance : Zero EvalTotals := ⟨⟨fun _ ↦ 0, fun _ ↦ 0⟩⟩

instance : Add EvalTotals where
  add a b := ⟨fun cell ↦ a.counts cell + b.counts cell, fun stage ↦ max (a.maxima stage) (b.maxima stage)⟩

instance : AddCommMonoid EvalTotals where
  add_assoc a b c :=
    EvalTotals.ext (funext fun _ ↦ Nat.add_assoc _ _ _) (funext fun _ ↦ LatencyMetrics.max_assoc _ _ _)
  add_comm a b :=
    EvalTotals.ext (funext fun _ ↦ Nat.add_comm _ _) (funext fun _ ↦ LatencyMetrics.max_comm _ _)
  zero_add a :=
    EvalTotals.ext (funext fun _ ↦ Nat.zero_add _) (funext fun _ ↦ LatencyMetrics.zero_max _)
  add_zero a :=
    EvalTotals.ext (funext fun _ ↦ Nat.add_zero _)
      (funext fun _ ↦ (LatencyMetrics.max_comm _ _).trans (LatencyMetrics.zero_max _))
  nsmul := nsmulRec

/-- The cells that hold these totals. -/
def wrap (totals : EvalTotals) : EvalCells := ⟨fun cell ↦ UInt64.ofNat (totals.counts cell), totals.maxima⟩

/-- No count has reached `2^64`. -/
def NoWrap (totals : EvalTotals) : Prop := ∀ cell, totals.counts cell < 2 ^ 64

/-- No more type errors than errors, and no more errors than evaluations. -/
structure Ordered (totals : EvalTotals) : Prop where
  typeErrors : totals.counts .evalTypeErrors ≤ totals.counts .evalErrors
  errors : totals.counts .evalErrors ≤ totals.counts .evals

theorem Ordered.add {a b : EvalTotals} (ha : a.Ordered) (hb : b.Ordered) : (a + b).Ordered :=
  ⟨Nat.add_le_add ha.typeErrors hb.typeErrors, Nat.add_le_add ha.errors hb.errors⟩

theorem NoWrap.of_add {a b : EvalTotals} (h : (a + b).NoWrap) : b.NoWrap :=
  fun cell ↦ (Nat.le_add_left _ _).trans_lt (h cell)

theorem toNat_wrap {totals : EvalTotals} (h : totals.NoWrap) (cell : CountCell) :
    (totals.wrap.counts cell).toNat = totals.counts cell :=
  UInt64.toNat_ofNat_of_lt' (h cell)

theorem get_le_wrap_add {a b : EvalTotals} (h : (a + b).NoWrap) (cell : MetricCell) :
    b.wrap.get cell ≤ (a + b).wrap.get cell := by
  cases cell with
  | count cell =>
      show b.wrap.counts cell ≤ (a + b).wrap.counts cell
      rw [UInt64.le_iff_toNat_le, toNat_wrap h, toNat_wrap h.of_add]
      exact Nat.le_add_left _ _
  | stageMax stage => exact Std.right_le_max

end EvalTotals

section Records

def CellWrite.single : CellWrite → EvalTotals
  | .add cell n => ⟨fun other ↦ if other = cell then n.toNat else 0, fun _ ↦ 0⟩
  | .raise stage nanos => ⟨fun _ ↦ 0, fun other ↦ if other = stage then nanos else 0⟩

theorem apply_wrap (write : CellWrite) (totals : EvalTotals) :
    write.apply totals.wrap = (write.single + totals).wrap := by
  cases write with
  | add cell n =>
      apply EvalCells.ext
      · funext other
        show Function.update totals.wrap.counts cell _ other =
          UInt64.ofNat ((if other = cell then n.toNat else 0) + totals.counts other)
        by_cases h : other = cell
        · rw [h, Function.update_self, if_pos rfl, UInt64.ofNat_add, UInt64.ofNat_toNat, add_comm]
          rfl
        · rw [Function.update_of_ne h, if_neg h, Nat.zero_add]
          rfl
      · funext stage
        exact (LatencyMetrics.zero_max _).symm
  | raise stage nanos =>
      apply EvalCells.ext
      · funext cell
        show UInt64.ofNat (totals.counts cell) = UInt64.ofNat (0 + totals.counts cell)
        rw [Nat.zero_add]
      · funext other
        show Function.update totals.maxima stage _ other = max (if other = stage then nanos else 0) _
        by_cases h : other = stage
        · rw [h, Function.update_self, if_pos rfl]
          rfl
        · rw [Function.update_of_ne h, if_neg h, LatencyMetrics.zero_max]

def CellRecorder.part (recorder : CellRecorder) : EvalTotals :=
  (recorder.written.map CellWrite.single).sum

/-- What all the records have written so far. -/
def recorded (recorders : List CellRecorder) : EvalTotals := (recorders.map CellRecorder.part).sum

theorem step_eq_some {cells : EvalCells} {recorder : CellRecorder} {r : EvalCells × CellRecorder}
    (h : recorder.step cells = some r) :
    ∃ write : CellWrite, r.1 = write.apply cells ∧ r.2.part = write.single + recorder.part := by
  rcases recorder with ⟨call, written, (_ | ⟨write, rest⟩), hwrites⟩
  · cases h
  · cases h
    refine ⟨write, rfl, ?_⟩
    show ((written ++ [write]).map CellWrite.single).sum =
      write.single + (written.map CellWrite.single).sum
    rw [List.map_append, List.sum_append, List.map_singleton, List.sum_singleton, add_comm]

/-- A move of the records makes one write or none. -/
theorem recording_cases {s t : State EvalCells CellRecorder} {move : Move RecordCall Unit}
    (h : recording.move s move = some t) :
    (t.shared = s.shared ∧ recorded t.parties = recorded s.parties) ∨
      ∃ write : CellWrite, t.shared = write.apply s.shared ∧
        recorded t.parties = write.single + recorded s.parties := by
  obtain ⟨call, -, rfl⟩ | ⟨i, _, recorder, r, -, hrecorder, hr, rfl⟩ := recording.move_cases h
  · refine Or.inl ⟨rfl, ?_⟩
    show ((s.parties ++ [_]).map CellRecorder.part).sum = (s.parties.map CellRecorder.part).sum
    rw [List.map_append, List.sum_append]
    exact add_zero _
  · obtain ⟨write, hcells, hpart⟩ := step_eq_some hr
    obtain ⟨rest, hsum, hset⟩ := Program.exists_rest CellRecorder.part hrecorder
    refine Or.inr ⟨write, hcells, ?_⟩
    rw [recorded, recorded, hset, hsum, hpart, add_assoc]

-- the writes of a record come in the order that keeps the totals apart
theorem ordered_of_prefix {call : RecordCall} {written : List CellWrite} (h : written <+: call.writes) :
    (written.map CellWrite.single).sum.Ordered := by
  obtain ⟨n, rfl⟩ : ∃ n, written = call.writes.take n := ⟨_, List.prefix_iff_eq_take.mp h⟩
  rcases call with _ | (_ | _) | kind | ⟨stage, nanos⟩ <;> rcases n with _ | _ | _ | n <;>
    simp only [RecordCall.writes, List.take_succ_cons, List.take_zero, List.take_nil] <;>
    exact ⟨Nat.le_of_ble_eq_true rfl, Nat.le_of_ble_eq_true rfl⟩

theorem ordered_part (recorder : CellRecorder) : recorder.part.Ordered :=
  ordered_of_prefix ⟨recorder.rest, recorder.hwrites⟩

theorem ordered_recorded (recorders : List CellRecorder) : (recorded recorders).Ordered := by
  induction recorders with
  | nil => exact ⟨Nat.le_refl 0, Nat.le_refl 0⟩
  | cons recorder rest ih => exact (ordered_part recorder).add ih

/-- The cells hold what the records have written, wrapped around. -/
def Holds (s : State EvalCells CellRecorder) : Prop := s.shared = (recorded s.parties).wrap

theorem Holds.move {s t : State EvalCells CellRecorder} (h : Holds s) {move : Move RecordCall Unit}
    (hmove : recording.move s move = some t) : Holds t := by
  obtain ⟨hshared, hrecorded⟩ | ⟨write, hshared, hrecorded⟩ := recording_cases hmove
  · rw [Holds, hshared, hrecorded, h]
  · rw [Holds, hshared, hrecorded, h, apply_wrap]

theorem noWrap_of_move {s t : State EvalCells CellRecorder} {move : Move RecordCall Unit}
    (hmove : recording.move s move = some t) (h : (recorded t.parties).NoWrap) :
    (recorded s.parties).NoWrap := by
  obtain ⟨-, hrecorded⟩ | ⟨write, -, hrecorded⟩ := recording_cases hmove
  · rwa [hrecorded] at h
  · rw [hrecorded] at h
    exact h.of_add

theorem Holds.get_le {s t : State EvalCells CellRecorder} (h : Holds s) {move : Move RecordCall Unit}
    (hmove : recording.move s move = some t) (hwrap : (recorded t.parties).NoWrap) (cell : MetricCell) :
    s.shared.get cell ≤ t.shared.get cell := by
  have ht : t.shared = (recorded t.parties).wrap := h.move hmove
  obtain ⟨hshared, -⟩ | ⟨write, -, hrecorded⟩ := recording_cases hmove
  · rw [hshared]
    exact UInt64.le_refl _
  · rw [ht, h]
    rw [hrecorded] at hwrap ⊢
    exact EvalTotals.get_le_wrap_add hwrap cell

end Records

/-! ## What a scrape publishes -/

instance preorderUInt64 : Preorder UInt64 where
  le_refl := UInt64.le_refl
  le_trans _ _ _ := UInt64.le_trans
  lt_iff_le_not_ge _ _ :=
    ⟨fun h ↦ ⟨UInt64.le_of_lt h, UInt64.not_le.mpr h⟩, fun h ↦ UInt64.not_le.mp h.2⟩

theorem nodup_snapshotOrder : snapshotOrder.Nodup := by decide

theorem mem_snapshotOrder (cell : MetricCell) : cell ∈ snapshotOrder := by
  rcases cell with (_ | _ | _ | kind | stage | stage) | stage
  · decide
  · decide
  · decide
  · cases kind <;> decide
  · cases stage <;> decide
  · cases stage <;> decide
  · cases stage <;> decide

def MetricCell.count? : MetricCell → Option CountCell
  | .count cell => some cell
  | .stageMax _ => none

def countCells : List CountCell := snapshotOrder.filterMap MetricCell.count?

theorem mem_countCells (cell : CountCell) : cell ∈ countCells :=
  List.mem_filterMap.mpr ⟨.count cell, mem_snapshotOrder _, rfl⟩

theorem name_injective : Function.Injective CountCell.name := by
  have hnodup : (countCells.map CountCell.name).Nodup := by decide +kernel
  exact fun cell other h ↦
    List.inj_on_of_nodup_map hnodup (mem_countCells cell) (mem_countCells other) h

theorem maxName_injective : Function.Injective maxName := by
  have hnodup : (stages.map maxName).Nodup := by decide +kernel
  have hmem (stage : LatencyStage) : stage ∈ stages := by cases stage <;> decide
  exact fun stage other h ↦ List.inj_on_of_nodup_map hnodup (hmem stage) (hmem other) h

section Publish

variable {ρ : Type} {M : MetricsRecorder ρ} {r : ρ} {taken : List (MetricCell × UInt64)}

theorem counter_of_not_mem (hM : M.Documented) {cell : CountCell}
    (h : MetricCell.count cell ∉ taken.map Prod.fst) :
    M.counter (publishEvalMetrics M r taken) cell.name = M.counter r cell.name := by
  induction taken generalizing r with
  | nil => rfl
  | cons e rest ih =>
      rw [List.map_cons, List.mem_cons, not_or] at h
      refine (ih h.2).trans ?_
      rcases e with ⟨other | stage, value⟩
      · exact hM.counter_other _ _ _ _ fun hname ↦ h.1 (congrArg MetricCell.count (name_injective hname))
      · exact hM.counter_set _ _ _ _

theorem gauge_of_not_mem (hM : M.Documented) {stage : LatencyStage}
    (h : MetricCell.stageMax stage ∉ taken.map Prod.fst) :
    M.gauge (publishEvalMetrics M r taken) (maxName stage) = M.gauge r (maxName stage) := by
  induction taken generalizing r with
  | nil => rfl
  | cons e rest ih =>
      rw [List.map_cons, List.mem_cons, not_or] at h
      refine (ih h.2).trans ?_
      rcases e with ⟨cell | other, value⟩
      · exact hM.gauge_absolute _ _ _ _
      · exact hM.gauge_other _ _ _ _ fun hname ↦
          h.1 (congrArg MetricCell.stageMax (maxName_injective hname))

/-- Each value of a snapshot is published under its own name, and nothing published later has it. -/
theorem counter_of_mem (hM : M.Documented) (hnodup : (taken.map Prod.fst).Nodup) {cell : CountCell}
    {value : UInt64} (h : (.count cell, value) ∈ taken) :
    M.counter (publishEvalMetrics M r taken) cell.name = max (M.counter r cell.name) value := by
  induction taken generalizing r with
  | nil => cases h
  | cons e rest ih =>
      obtain ⟨hfresh, hrest⟩ := List.nodup_cons.mp hnodup
      rcases List.mem_cons.mp h with rfl | hmem
      · exact (counter_of_not_mem hM hfresh).trans (hM.counter_absolute _ _ _)
      · have hhead : M.counter (publishEvalMetrics M r [e]) cell.name = M.counter r cell.name := by
          apply counter_of_not_mem hM
          intro hcell
          rw [List.map_singleton, List.mem_singleton] at hcell
          exact hfresh (hcell ▸ List.mem_map_of_mem hmem)
        exact (ih hrest hmem).trans (congrArg (max · value) hhead)

theorem gauge_of_mem (hM : M.Documented) (hnodup : (taken.map Prod.fst).Nodup) {stage : LatencyStage}
    {value : UInt64} (h : (.stageMax stage, value) ∈ taken) :
    M.gauge (publishEvalMetrics M r taken) (maxName stage) = F64.ofNat value.toNat := by
  induction taken generalizing r with
  | nil => cases h
  | cons e rest ih =>
      obtain ⟨hfresh, hrest⟩ := List.nodup_cons.mp hnodup
      rcases List.mem_cons.mp h with rfl | hmem
      · exact (gauge_of_not_mem hM hfresh).trans (hM.gauge_set _ _ _)
      · exact ih hrest hmem

end Publish

/-! ## Runs -/

/-- The values served lie between the cells at the start and at the end of the scrape; a maximum is
rounded to the nearest double, which it is itself up to `2^53`. -/
structure Scrape.Between (scrape : Scrape) : Prop where
  counters : ∀ cell, scrape.start (.count cell) ≤ scrape.counters cell ∧
    scrape.counters cell ≤ scrape.finish (.count cell)
  gauges : ∀ stage, ∃ nanos, scrape.start (.stageMax stage) ≤ nanos ∧
    nanos ≤ scrape.finish (.stageMax stage) ∧ scrape.gauges stage = F64.ofNat nanos.toNat ∧
      (nanos.toNat ≤ 2 ^ 53 → (scrape.gauges stage).scaled = nanos.toNat * unit)

/-- A type error is an error, and an error is an evaluation. -/
def OrderedCells (cells : MetricCell → UInt64) : Prop :=
  cells (.count .evalTypeErrors) ≤ cells (.count .evalErrors) ∧
    cells (.count .evalErrors) ≤ cells (.count .evals)

/-- What was published and served so far, against the cells as they are now. -/
structure Served {ρ : Type} (M : MetricsRecorder ρ) (s : Endpoint ρ) : Prop where
  published : ∀ cell : CountCell, M.counter s.recorder cell.name ≤ s.records.shared.counts cell
  between : ∀ scrape ∈ s.scrapes, scrape.Between ∧
    ∀ cell, scrape.finish cell ≤ s.records.shared.get cell
  ordered : ∀ scrape ∈ s.scrapes, OrderedCells scrape.finish
  successive : s.scrapes.Pairwise fun earlier later ↦ ∀ cell, earlier.finish cell ≤ later.start cell
  loading : ∀ scan, s.server = .loading scan → scan.Between s.records.shared.get ∧
    scan.order = snapshotOrder ∧
      (∀ cell : CountCell, M.counter s.recorder cell.name ≤ scan.start (.count cell)) ∧
        ∀ scrape ∈ s.scrapes, ∀ cell, scrape.finish cell ≤ scan.start cell

section Runs

variable {ρ : Type} {M : MetricsRecorder ρ} {s t : Endpoint ρ}

theorem served_init (hM : M.Documented) : Served M (.init M) where
  published cell := by
    show M.counter M.installed cell.name ≤ 0
    rw [hM.counter_installed]
  between := nofun
  ordered := nofun
  successive := List.Pairwise.nil
  loading := nofun

/-- Cells that only rise keep what was served below them. -/
theorem Served.raise (h : Served M s) {records : State EvalCells CellRecorder}
    (hle : ∀ cell, s.records.shared.get cell ≤ records.shared.get cell) :
    Served M { s with records := records } where
  published cell := (h.published cell).trans (hle (.count cell))
  between scrape hscrape := by
    obtain ⟨hbetween, hfinish⟩ := h.between scrape hscrape
    exact ⟨hbetween, fun cell ↦ (hfinish cell).trans (hle cell)⟩
  ordered := h.ordered
  successive := h.successive
  loading scan hscan := by
    obtain ⟨hbetween, hrest⟩ := h.loading scan hscan
    exact ⟨hbetween.raise hle, hrest⟩

/-- What the end of a scrape renders is what it has loaded. -/
theorem between_rendered (hM : M.Documented) {r : ρ} {start now : MetricCell → UInt64}
    {taken : List (MetricCell × UInt64)}
    (hbetween : Scan.Between (⟨start, taken, []⟩ : Scan MetricCell UInt64) now)
    (horder : Scan.order (⟨start, taken, []⟩ : Scan MetricCell UInt64) = snapshotOrder)
    (hstart : ∀ cell : CountCell, M.counter r cell.name ≤ start (.count cell)) :
    (Scrape.rendered M (publishEvalMetrics M r taken) start now).Between := by
  have horder' : taken.map Prod.fst = snapshotOrder := (List.append_nil _).symm.trans horder
  have hnodup : (taken.map Prod.fst).Nodup := horder' ▸ nodup_snapshotOrder
  have hloaded (cell : MetricCell) : ∃ value, (cell, value) ∈ taken := by
    have hcell : cell ∈ taken.map Prod.fst := horder' ▸ mem_snapshotOrder cell
    obtain ⟨⟨_, value⟩, hmem, rfl⟩ := List.mem_map.mp hcell
    exact ⟨value, hmem⟩
  constructor
  · intro cell
    obtain ⟨value, hmem⟩ := hloaded (.count cell)
    have hlower : start (.count cell) ≤ value := hbetween.lower _ hmem
    have hupper : value ≤ now (.count cell) := hbetween.upper _ hmem
    show start (.count cell) ≤ M.counter _ cell.name ∧ M.counter _ cell.name ≤ now (.count cell)
    rw [counter_of_mem hM hnodup hmem]
    exact ⟨hlower.trans Std.right_le_max,
      Std.max_le_iff.mpr ⟨(hstart cell).trans (hlower.trans hupper), hupper⟩⟩
  · intro stage
    obtain ⟨value, hmem⟩ := hloaded (.stageMax stage)
    have hgauge : M.gauge (publishEvalMetrics M r taken) (maxName stage) = F64.ofNat value.toNat :=
      gauge_of_mem hM hnodup hmem
    refine ⟨value, hbetween.lower _ hmem, hbetween.upper _ hmem, hgauge, fun hexact ↦ ?_⟩
    show (M.gauge _ _).scaled = _
    rw [hgauge, F64.ofNat_eq_finite (F64.representable_natCast hexact)]
    exact Int.natCast_mul _ _

theorem Served.publish (hM : M.Documented) (h : Served M s)
    (hordered : OrderedCells s.records.shared.get) {start : MetricCell → UInt64}
    {taken : List (MetricCell × UInt64)} (hserver : s.server = .loading ⟨start, taken, []⟩) :
    Served M { s with
      server := .accepting
      recorder := publishEvalMetrics M s.recorder taken
      scrapes := s.scrapes ++
        [.rendered M (publishEvalMetrics M s.recorder taken) start s.records.shared.get] } := by
  obtain ⟨hloading, horder, hstart, hscrapes⟩ := h.loading _ hserver
  have hbetween := between_rendered hM hloading horder hstart
  constructor
  · exact fun cell ↦ (hbetween.counters cell).2
  · intro scrape hscrape
    rcases List.mem_append.mp hscrape with hold | hnew
    · exact h.between scrape hold
    · rw [List.mem_singleton.mp hnew]
      exact ⟨hbetween, fun _ ↦ le_refl _⟩
  · intro scrape hscrape
    rcases List.mem_append.mp hscrape with hold | hnew
    · exact h.ordered scrape hold
    · rw [List.mem_singleton.mp hnew]
      exact hordered
  · rw [List.pairwise_append]
    refine ⟨h.successive, List.pairwise_singleton _ _, fun earlier hearlier later hlater ↦ ?_⟩
    rw [List.mem_singleton.mp hlater]
    exact hscrapes earlier hearlier
  · nofun

theorem Holds.ordered {records : State EvalCells CellRecorder} (h : Holds records)
    (hwrap : (recorded records.parties).NoWrap) : OrderedCells records.shared.get := by
  have hordered : (recorded records.parties).Ordered := ordered_recorded records.parties
  show records.shared.counts _ ≤ records.shared.counts _ ∧
    records.shared.counts _ ≤ records.shared.counts _
  rw [h]
  simp only [UInt64.le_iff_toNat_le, EvalTotals.toNat_wrap hwrap]
  exact ⟨hordered.typeErrors, hordered.errors⟩

/-- A step is a move of the records, the start of a scrape, an answer at once, a load, or the end of a
scrape. -/
theorem Endpoint.step_cases {action : EndpointAction} (hstep : s.step M action = some t) :
    (∃ move records, recording.move s.records move = some records ∧
        t = { s with records := records }) ∨
      (s.server = .accepting ∧
        t = { s with server := .loading (Scan.begin s.records.shared.get snapshotOrder) }) ∨
      t = s ∨
      (∃ scan next, s.server = .loading scan ∧ scan.read s.records.shared.get = some next ∧
        t = { s with server := .loading next }) ∨
      ∃ start taken, s.server = .loading ⟨start, taken, []⟩ ∧
        t = { s with
          server := .accepting
          recorder := publishEvalMetrics M s.recorder taken
          scrapes := s.scrapes ++
            [.rendered M (publishEvalMetrics M s.recorder taken) start s.records.shared.get] } := by
  cases action with
  | record move =>
      obtain ⟨records, hmove, rfl⟩ := Option.map_eq_some_iff.mp hstep
      exact Or.inl ⟨move, records, hmove, rfl⟩
  | connect request =>
      have hconnect : s.connect request = some t := hstep
      unfold Endpoint.connect at hconnect
      split at hconnect
      · rename_i hserver _
        cases hconnect
        exact Or.inr (Or.inl ⟨hserver, rfl⟩)
      · cases hconnect
        exact Or.inr (Or.inr (Or.inl rfl))
      · cases hconnect
  | load =>
      have hload : s.load = some t := hstep
      unfold Endpoint.load at hload
      split at hload
      · cases hload
      · rename_i scan hserver
        obtain ⟨next, hread, rfl⟩ := Option.map_eq_some_iff.mp hload
        exact Or.inr (Or.inr (Or.inr (Or.inl ⟨scan, next, hserver, hread, rfl⟩)))
  | publish =>
      have hpublish : s.publishLoaded M = some t := hstep
      unfold Endpoint.publishLoaded at hpublish
      split at hpublish
      · rename_i start taken hserver
        cases hpublish
        exact Or.inr (Or.inr (Or.inr (Or.inr ⟨start, taken, hserver, rfl⟩)))
      · cases hpublish

theorem Served.step (hM : M.Documented) (h : Served M s) (hholds : Holds s.records)
    {action : EndpointAction} (hstep : s.step M action = some t)
    (hwrap : (recorded t.records.parties).NoWrap) : Served M t := by
  obtain ⟨move, records, hmove, rfl⟩ | ⟨-, rfl⟩ | rfl | ⟨scan, next, hserver, hread, rfl⟩ |
    ⟨start, taken, hserver, rfl⟩ := Endpoint.step_cases hstep
  · exact h.raise (hholds.get_le hmove hwrap)
  · -- a scrape begins: its start is the cells as they are now
    refine ⟨h.published, h.between, h.ordered, h.successive, fun scan hscan ↦ ?_⟩
    cases hscan
    exact ⟨Scan.between_begin _ _, rfl, h.published, fun scrape hscrape ↦ (h.between scrape hscrape).2⟩
  · exact h
  · obtain ⟨hbetween, horder, hstart⟩ := h.loading scan hserver
    refine ⟨h.published, h.between, h.ordered, h.successive, fun scan' hscan ↦ ?_⟩
    cases hscan
    rw [Scan.start_read hread]
    exact ⟨hbetween.read hread, (Scan.order_read hread).trans horder, hstart⟩
  · exact h.publish hM (hholds.ordered hwrap) hserver

/-- Only a record writes to the cells. -/
theorem records_step {action : EndpointAction} (hstep : s.step M action = some t) :
    t.records = s.records ∨ ∃ move, recording.move s.records move = some t.records := by
  obtain ⟨move, records, hmove, rfl⟩ | ⟨-, rfl⟩ | rfl | ⟨scan, next, -, -, rfl⟩ |
    ⟨start, taken, -, rfl⟩ := Endpoint.step_cases hstep
  · exact Or.inr ⟨move, hmove⟩
  · exact Or.inl rfl
  · exact Or.inl rfl
  · exact Or.inl rfl
  · exact Or.inl rfl

/-- Counts only grow, so that a run without a wrap in the end had none before. -/
theorem served (hM : M.Documented) (h : (endpointSystem M).Reachable s) :
    Holds s.records ∧ ((recorded s.records.parties).NoWrap → Served M s) := by
  apply h.invariant ⟨rfl, fun _ ↦ served_init hM⟩
  intro s action t hs hstep
  obtain ⟨hholds, hserved⟩ := hs
  obtain hrecords | ⟨move, hmove⟩ := records_step hstep
  · refine ⟨hrecords ▸ hholds, fun hwrap ↦ (hserved ?_).step hM hholds hstep hwrap⟩
    rwa [hrecords] at hwrap
  · exact ⟨hholds.move hmove, fun hwrap ↦
      (hserved (noWrap_of_move hmove hwrap)).step hM hholds hstep hwrap⟩

end Runs

/-! ## The main result -/

end Tenon.Oss
