import Mathlib.Logic.Function.Basic
import Mathlib.Tactic.Common

/-!
# Files — programs that read and write files

A program reads, writes and may fail at any operation; what it wrote before it failed stays.  Paths name
files through the disk, where several may name the same one.  The module gives the operations against a
disk that may refuse them, the inversion of a sequence, and the frame rules: which files a program leaves
as they are.
-/

namespace Reasoning

-- `ρ` are the places of files, whatever paths lead there
abbrev Files (ρ κ : Type) := ρ → Option κ

-- a failing program keeps the files it has changed
abbrev FileProgram (ρ κ ε α : Type) := EStateM ε (Files ρ κ) α

/-- What a disk answers to the operations of a program. -/
structure Disk (π ρ κ ε : Type) where
  -- the place that a path names, links and the working directory taken into account
  resolve : π → ρ
  notFound : π → ε
  -- the error of reading a file that is there
  unreadable : π → Option ε
  createDirAll : π → Option ε
  -- the error of writing the second content over the first, and what that leaves in the file
  unwritable : π → Option κ → κ → Option (ε × Option κ)

namespace Disk

variable {π ρ κ ε : Type} (disk : Disk π ρ κ ε)

def isFile (path : π) : FileProgram ρ κ ε Bool := do
  let files ← get
  return (files (disk.resolve path)).isSome

def read (path : π) : FileProgram ρ κ ε κ := do
  let files ← get
  match files (disk.resolve path), disk.unreadable path with
  | none, _ => throw (disk.notFound path)
  | some _, some err => throw err
  | some content, none => return content

def createDir (path : π) : FileProgram ρ κ ε Unit :=
  match disk.createDirAll path with
  | some err => throw err
  | none => return ()

def write [DecidableEq ρ] (path : π) (content : κ) : FileProgram ρ κ ε Unit := do
  let files ← get
  match disk.unwritable path (files (disk.resolve path)) content with
  | none => set (Function.update files (disk.resolve path) (some content))
  | some (err, left) =>
      set (Function.update files (disk.resolve path) left)
      throw err

def writeIfMissing [DecidableEq ρ] (path : π) (content : κ) : FileProgram ρ κ ε Unit := do
  if ← disk.isFile path then return () else disk.write path content

end Disk

namespace FileProgram

variable {π ρ κ ε α β : Type}

-- the files a run leaves, whether it fails or not
def left : EStateM.Result ε (Files ρ κ) α → Files ρ κ
  | .ok _ files => files
  | .error _ files => files

/-! ## Sequences -/

theorem bind_eq_ok {m : FileProgram ρ κ ε α} {f : α → FileProgram ρ κ ε β} {s t : Files ρ κ} {b : β} :
    (m >>= f).run s = .ok b t ↔ ∃ a u, m.run s = .ok a u ∧ (f a).run u = .ok b t := by
  rw [EStateM.run_bind]
  cases m.run s with
  | ok a u =>
      constructor
      · exact fun h ↦ ⟨a, u, rfl, h⟩
      · intro h
        rcases h with ⟨_, _, heq, h⟩
        cases heq
        exact h
  | error e u => exact ⟨nofun, nofun⟩

/-! ## What stays -/

/-- The program leaves the file at `place` as it is. -/
def Keeps (place : ρ) (s : Files ρ κ) (m : FileProgram ρ κ ε α) : Prop :=
  left (m.run s) place = s place

section Keeps

variable {place : ρ} {s : Files ρ κ}

@[simp]
theorem run_mapErr_ok_iff {m : FileProgram ρ κ ε α} {g : ε → ε} {a : α} {t : Files ρ κ} :
    (EStateM.adaptExcept g m).run s = .ok a t ↔ m.run s = .ok a t := by
  rw [EStateM.run_adaptExcept]
  cases m.run s <;> simp

theorem Keeps.bind {m : FileProgram ρ κ ε α} {f : α → FileProgram ρ κ ε β} (hm : Keeps place s m)
    (hf : ∀ a u, m.run s = .ok a u → Keeps place u (f a)) : Keeps place s (m >>= f) := by
  unfold Keeps at hm ⊢
  rw [EStateM.run_bind]
  cases hrun : m.run s with
  | ok a u =>
      rw [hrun] at hm
      exact (hf a u hrun).trans hm
  | error e u =>
      rw [hrun] at hm
      exact hm

theorem Keeps.mapErr {m : FileProgram ρ κ ε α} (h : Keeps place s m) (g : ε → ε) :
    Keeps place s (EStateM.adaptExcept g m) := by
  unfold Keeps at h ⊢
  rw [EStateM.run_adaptExcept]
  cases hrun : m.run s <;> rwa [hrun] at h

/-- What holds of the file at `place` still does after the program. -/
def Preserves (P : Option κ → Prop) (place : ρ) (s : Files ρ κ) (m : FileProgram ρ κ ε α) : Prop :=
  P (s place) → P (left (m.run s) place)

theorem Preserves.bind {P : Option κ → Prop} {m : FileProgram ρ κ ε α}
    {f : α → FileProgram ρ κ ε β} (hm : Preserves P place s m)
    (hf : ∀ a u, m.run s = .ok a u → Preserves P place u (f a)) : Preserves P place s (m >>= f) := by
  intro hs
  have hleft := hm hs
  rw [EStateM.run_bind]
  cases hrun : m.run s with
  | ok a u =>
      rw [hrun] at hleft
      exact hf a u hrun hleft
  | error e u =>
      rw [hrun] at hleft
      exact hleft

variable (disk : Disk π ρ κ ε)

/-- What a successful read returns is the content of the file. -/
theorem read_eq_ok {t : Files ρ κ} {other : π} {content : κ}
    (h : (disk.read other).run s = .ok content t) : t = s ∧ s (disk.resolve other) = some content := by
  obtain ⟨files, u, hget, hrun⟩ := bind_eq_ok.mp h
  cases hget
  split at hrun
  · cases hrun
  · cases hrun
  · rename_i hcontent _
    cases hrun
    exact ⟨rfl, hcontent⟩

-- the operations a disk does not refuse
theorem run_read {other : π} {content : κ} (hreadable : disk.unreadable other = none)
    (hcontent : s (disk.resolve other) = some content) : (disk.read other).run s = .ok content s := by
  apply bind_eq_ok.mpr
  refine ⟨s, s, rfl, ?_⟩
  rw [hcontent, hreadable]
  rfl

theorem run_createDir {dir : π} (hcreates : disk.createDirAll dir = none) :
    (disk.createDir dir).run s = .ok () s := by
  unfold Disk.createDir
  rw [hcreates]
  rfl

theorem run_write [DecidableEq ρ] {other : π} {content : κ}
    (hwritable : disk.unwritable other (s (disk.resolve other)) content = none) :
    (disk.write other content).run s =
      .ok () (Function.update s (disk.resolve other) (some content)) := by
  apply bind_eq_ok.mpr
  refine ⟨s, s, rfl, ?_⟩
  rw [hwritable]
  rfl

theorem run_writeIfMissing [DecidableEq ρ] {other : π} {content : κ}
    (hwritable : disk.unwritable other (s (disk.resolve other)) content = none) :
    (disk.writeIfMissing other content).run s = .ok () (if (s (disk.resolve other)).isSome then s
      else Function.update s (disk.resolve other) (some content)) := by
  have hisFile : (disk.isFile other).run s = .ok (s (disk.resolve other)).isSome s := rfl
  refine bind_eq_ok.mpr ⟨(s (disk.resolve other)).isSome, s, hisFile, ?_⟩
  cases hthere : (s (disk.resolve other)).isSome with
  | true => rfl
  | false => exact run_write disk hwritable

end Keeps

end FileProgram

end Reasoning
