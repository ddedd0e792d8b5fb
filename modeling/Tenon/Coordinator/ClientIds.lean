import Tenon.Core.RuleCompile
import Tenon.Reasoning.Lines

/-!
# ClientIds — the file of client ids across restarts

A start takes the ids of the file, or makes them from the node id when the file has none, and writes
them back one on a line.  The file is read with its lines trimmed, so ids made from a node id that
starts blank or holds a line feed are not read back as they were written.
-/

open Reasoning Tenon.Core

namespace Tenon.Coordinator

/-! ## Reading and writing the file -/

def stripCarriageReturn (line : List Char) : List Char :=
  if line.getLast? = some '\r' then line.dropLast else line

/-- `str::lines`: the last piece is a line only when it is not empty. -/
def lines (text : List Char) : List (List Char) :=
  let pieces := text.splitOn '\n'
  pieces.dropLast.map stripCarriageReturn ++ pieces.getLast?.toList.filter (· ≠ [])

def parseClientIds (bytes : ByteArray) : Option (List String) :=
  match String.fromUTF8? bytes with
  | none => none
  | some content =>
      let values := ((lines content.toList).map trim).filter (· ≠ [])
      if values.isEmpty then none else some (values.map String.ofList)

-- a file that does not exist holds no ids
def loadClientIds (file : Option ByteArray) : Option (List String) :=
  file.bind parseClientIds

def persistClientIds (file : Option ByteArray) (clientIds : List String) : Option ByteArray :=
  if clientIds.isEmpty then file
  else some (Segments.join '\n' clientIds ++ "\n").toUTF8

/-! ## Resolving the ids of a start -/

def normalizeClientCount (clientCount : UInt16) : Nat := max clientCount.toNat 1

def clientId (nodeId : String) (index : Nat) : String := nodeId ++ "_" ++ toString index

def resolveClientIds (file : Option ByteArray) (nodeId : String) (clientCount : UInt16) :
    List String :=
  match loadClientIds file with
  | some values => values
  | none => (List.range (normalizeClientCount clientCount)).map (clientId nodeId)

/-- The configuration of one start, as far as the client ids go. -/
structure Start where
  nodeId : String
  clientCount : UInt16

/-- The ids of a start, and the file after it. -/
def Start.run (start : Start) (file : Option ByteArray) : List String × Option ByteArray :=
  let clientIds := resolveClientIds file start.nodeId (max start.clientCount 1)
  (clientIds, persistClientIds file clientIds)

/-- The ids of each start of a sequence. -/
def resolvedIds (file : Option ByteArray) : List Start → List (List String)
  | [] => []
  | start :: rest => (start.run file).1 :: resolvedIds (start.run file).2 rest

/-! ## The file as a list of entries -/

theorem trim_stripCarriageReturn (line : List Char) : trim (stripCarriageReturn line) = trim line := by
  unfold stripCarriageReturn
  split
  · rename_i hlast
    have hline : line = line.dropLast ++ ['\r'] :=
      (List.dropLast_append_getLast? '\r' hlast).symm
    have hblank : isWhitespace '\r' = true := rfl
    conv_rhs => rw [hline]
    exact (Lines.strip_concat_blank line.dropLast hblank).symm
  · rfl

/-- The entries of a file are its lines as they are split at line feeds. -/
theorem entries_eq_read (text : List Char) :
    ((lines text).map trim).filter (· ≠ []) = Lines.read '\n' isWhitespace text := by
  obtain ⟨init, last, hpieces⟩ : ∃ init last, text.splitOn '\n' = init ++ [last] :=
    ⟨_, _, (List.dropLast_append_getLast (List.splitOn_ne_nil '\n' text)).symm⟩
  have hinit : (init.map stripCarriageReturn).map trim = init.map trim := by
    rw [List.map_map]
    exact List.map_congr_left fun line _ ↦ trim_stripCarriageReturn line
  have hlast : (([last].filter (· ≠ [])).map trim).filter (· ≠ []) =
      ([last].map trim).filter (· ≠ []) := by
    cases last with
    | nil => rfl
    | cons c cs => rfl
  rw [lines, Lines.read, hpieces]
  simp only [List.dropLast_concat, List.getLast?_concat, Option.toList_some, List.map_append,
    List.filter_append, hinit]
  exact congrArg _ hlast

theorem fromUTF8?_toUTF8 (s : String) : String.fromUTF8? s.toUTF8 = some s :=
  dif_pos s.isValidUTF8

theorem toList_file {clientIds : List String} :
    (Segments.join '\n' clientIds ++ "\n").toList =
      Lines.write '\n' (clientIds.map String.toList) := by
  rw [String.toList_append, Segments.toList_join]
  rfl

theorem parseClientIds_eq_some_iff (content : String) (clientIds : List String) :
    parseClientIds content.toUTF8 = some clientIds ↔
      clientIds ≠ [] ∧
        Lines.read '\n' isWhitespace content.toList = clientIds.map String.toList := by
  have hinj : Function.Injective (List.map String.toList) :=
    List.map_injective_iff.mpr fun _ _ h ↦ String.toList_inj.mp h
  have hback (values : List (List Char)) : (values.map String.ofList).map String.toList = values := by
    simp [Function.comp_def]
  rw [parseClientIds, fromUTF8?_toUTF8]
  simp only [entries_eq_read]
  cases hread : Lines.read '\n' isWhitespace content.toList with
  | nil =>
      refine iff_of_false (by simp) fun h ↦ h.1 ?_
      exact List.map_eq_nil_iff.mp h.2.symm
  | cons e rest =>
      simp only [List.isEmpty_cons, Bool.false_eq_true, if_false, Option.some.injEq]
      constructor
      · intro h
        rw [← h]
        exact ⟨by simp, (hback _).symm⟩
      · intro h
        apply hinj
        rw [hback, h.2]

/-- The ids written are read back exactly when each is trimmed, not empty and on one line. -/
theorem load_persist_iff {file : Option ByteArray} {clientIds : List String} (hne : clientIds ≠ []) :
    loadClientIds (persistClientIds file clientIds) = some clientIds ↔
      ∀ id ∈ clientIds, Lines.Writable '\n' isWhitespace id.toList := by
  rw [persistClientIds, if_neg (by simpa using hne)]
  change parseClientIds _ = some clientIds ↔ _
  rw [parseClientIds_eq_some_iff, toList_file, and_iff_right hne,
    Lines.read_write_iff (by simpa using hne)]
  simp

/-- Ids that come from a file can be written back. -/
theorem writable_of_load {file : Option ByteArray} {clientIds : List String}
    (h : loadClientIds file = some clientIds) :
    clientIds ≠ [] ∧ ∀ id ∈ clientIds, Lines.Writable '\n' isWhitespace id.toList := by
  obtain ⟨bytes, -, hparse⟩ := Option.bind_eq_some_iff.mp h
  rw [parseClientIds] at hparse
  cases hcontent : String.fromUTF8? bytes with
  | none => simp [hcontent] at hparse
  | some content =>
      simp only [hcontent, entries_eq_read] at hparse
      split at hparse
      · cases hparse
      · rename_i hne
        cases hparse
        refine ⟨by simpa using hne, fun id hid ↦ ?_⟩
        obtain ⟨entry, hentry, rfl⟩ := List.mem_map.mp hid
        rw [String.toList_ofList]
        exact Lines.writable_of_mem_read hentry

/-! ## Ids made from a node id -/

/-- The node id holds no line feed and does not start blank. -/
def PlainNodeId (nodeId : String) : Prop :=
  '\n' ∉ nodeId.toList ∧ ∀ c ∈ nodeId.toList.head?, isWhitespace c = false

theorem isWhitespace_of_isDigit {c : Char} (h : c.isDigit = true) : isWhitespace c = false := by
  have hlow : 48 ≤ c.toNat := (Char.isDigit_iff_toNat.mp h).1
  have hhigh : c.toNat ≤ 57 := (Char.isDigit_iff_toNat.mp h).2
  rw [← Bool.not_eq_true]
  intro hblank
  simp only [isWhitespace, Bool.or_eq_true, Bool.and_eq_true, decide_eq_true_eq] at hblank
  omega

theorem writable_clientId_iff (nodeId : String) (index : Nat) :
    Lines.Writable '\n' isWhitespace (clientId nodeId index).toList ↔ PlainNodeId nodeId := by
  have hchars : (clientId nodeId index).toList =
      nodeId.toList ++ '_' :: Nat.toDigits 10 index := by
    simp [clientId]
  have hdigit (c : Char) (hc : c ∈ Nat.toDigits 10 index) : isWhitespace c = false :=
    isWhitespace_of_isDigit (Nat.isDigit_of_mem_toDigits (by decide) (by decide) hc)
  have hfeed : '\n' ∉ Nat.toDigits 10 index := fun hmem ↦ by cases hdigit _ hmem
  obtain ⟨init, last, hlast⟩ : ∃ init last, Nat.toDigits 10 index = init ++ [last] :=
    ⟨_, _, (List.dropLast_append_getLast Nat.toDigits_ne_nil).symm⟩
  have hlastBlank : isWhitespace last = false := hdigit last (by rw [hlast]; simp)
  rw [hchars]
  constructor
  · intro h
    rcases h with ⟨⟨first, _, hhead, -, hfirst, -⟩, hfree⟩
    refine ⟨fun hmem ↦ hfree (List.mem_append_left _ hmem), fun c hc ↦ ?_⟩
    rw [List.head?_append, Option.mem_def.mp hc] at hhead
    cases hhead
    exact hfirst
  · intro h
    rcases h with ⟨hfree, hhead⟩
    refine ⟨⟨nodeId.toList.head?.getD '_', last, ?_, ?_, ?_, hlastBlank⟩, ?_⟩
    · cases nodeId.toList <;> rfl
    · rw [hlast, ← List.cons_append, ← List.append_assoc, List.getLast?_concat]
    · cases hnode : nodeId.toList.head? with
      | none => rfl
      | some c => exact hhead c hnode
    · intro hmem
      rcases List.mem_append.mp hmem with hnode | hrest
      · exact hfree hnode
      · rcases List.mem_cons.mp hrest with heq | hdigits
        · cases heq
        · exact hfeed hdigits

/-! ## Restarts -/

/-- What the file holds or the node id is made of keeps the ids of a start. -/
def KeepsIds (file : Option ByteArray) (nodeId : String) : Prop :=
  (loadClientIds file).isSome ∨ PlainNodeId nodeId

theorem resolveClientIds_ne_nil (file : Option ByteArray) (nodeId : String) (clientCount : UInt16) :
    resolveClientIds file nodeId clientCount ≠ [] := by
  unfold resolveClientIds
  cases hload : loadClientIds file with
  | some values => exact (writable_of_load hload).1
  | none =>
      simp only [ne_eq, List.map_eq_nil_iff, List.range_eq_nil, normalizeClientCount]
      omega

/-- What a start writes is what the next one reads exactly when the file had ids or the node id is
plain. -/
theorem load_run_iff (file : Option ByteArray) (start : Start) :
    loadClientIds (start.run file).2 = some (start.run file).1 ↔ KeepsIds file start.nodeId := by
  rw [Start.run, load_persist_iff (resolveClientIds_ne_nil _ _ _), KeepsIds, resolveClientIds]
  cases hload : loadClientIds file with
  | some values => exact iff_of_true (writable_of_load hload).2 (Or.inl rfl)
  | none =>
      simp only [List.mem_map, List.mem_range, Option.isSome_none, Bool.false_eq_true, false_or]
      constructor
      · intro h
        have hzero : 0 < normalizeClientCount (max start.clientCount 1) :=
          Nat.lt_of_lt_of_le Nat.one_pos (Nat.le_max_right _ 1)
        exact (writable_clientId_iff start.nodeId 0).mp (h _ ⟨0, hzero, rfl⟩)
      · intro h id hid
        obtain ⟨index, -, rfl⟩ := hid
        exact (writable_clientId_iff start.nodeId index).mpr h

/-- Each start is followed by starts with the same ids, which the file it leaves holds. -/
def StableRun (file : Option ByteArray) : List Start → Prop
  | [] => True
  | start :: rest =>
      loadClientIds (start.run file).2 = some (start.run file).1 ∧
        (∀ clientIds ∈ resolvedIds (start.run file).2 rest, clientIds = (start.run file).1) ∧
        StableRun (start.run file).2 rest

-- a start on a file that is read back leaves the file's ids in place
theorem run_of_load {file : Option ByteArray} {clientIds : List String}
    (h : loadClientIds file = some clientIds) (start : Start) :
    (start.run file).1 = clientIds ∧ loadClientIds (start.run file).2 = some clientIds := by
  have hids : (start.run file).1 = clientIds := by
    rw [Start.run, resolveClientIds, h]
  refine ⟨hids, ?_⟩
  rw [← hids]
  exact (load_run_iff file start).mpr (Or.inl (by rw [h]; rfl))

theorem stable_of_load {file : Option ByteArray} {clientIds : List String}
    (h : loadClientIds file = some clientIds) (starts : List Start) :
    (∀ ids ∈ resolvedIds file starts, ids = clientIds) ∧ StableRun file starts := by
  induction starts generalizing file with
  | nil => exact ⟨fun ids hids ↦ absurd hids List.not_mem_nil, trivial⟩
  | cons start rest ih =>
      obtain ⟨hids, hload⟩ := run_of_load h start
      obtain ⟨hrest, hstable⟩ := ih hload
      refine ⟨fun ids hmem ↦ ?_, by rw [hids]; exact hload, ?_, hstable⟩
      · rcases List.mem_cons.mp hmem with rfl | hmem
        · exact hids
        · exact hrest ids hmem
      · rw [hids]
        exact hrest

/-- The ids are the same from the first start on exactly when that start found ids in the file or its
node id is plain. -/
theorem stableRun_iff (file : Option ByteArray) (first : Start) (later : List Start) :
    StableRun file (first :: later) ↔ KeepsIds file first.nodeId := by
  rw [← load_run_iff]
  constructor
  · intro h
    exact h.1
  · intro h
    obtain ⟨hsame, hstable⟩ := stable_of_load h later
    exact ⟨h, hsame, hstable⟩

/-- With a node id that starts with a space the second start reads other ids than the first one
wrote. -/
theorem not_stableRun_leadingSpace : ¬ StableRun none [⟨" n", 1⟩, ⟨" n", 1⟩] := by
  intro h
  rcases (load_run_iff none ⟨" n", 1⟩).mp h.1 with hload | hplain
  · cases hload
  · have hspace := hplain.2 ' ' rfl
    cases hspace

end Tenon.Coordinator
