import Mathlib.Data.List.Basic
import Mathlib.Logic.Function.Basic

/-! # Programs over files that may be cut short

A program changes files by operations, of which each may fail and each may be the last thing its process
does.  An operation that fails or is stopped can have done nothing, a part of its work or all of it.  The
`Schedule` of a run has the fault, if any, of each operation by its number, and a run ends with a value,
with an error or with a stop of the process, and in every case with the files as they are left.

`writeFile` replaces a file in place: it opens the file, which creates or empties it, and then writes the
content.  What it leaves is `written`, after the number of elements that `extent` reads off the schedule;
with no fault the file has the whole content (`writeFile_of_clear`), and otherwise the program goes no
further (`writeFile_of_fault`). -/

namespace FaultyFiles

/-- The files by their paths; a missing file has no content. -/
abbrev Files (π β : Type) := π → Option (List β)

/-- How an operation is cut short, with how much of it has been done. -/
inductive Fault (ι : Type) where
  | fail (e : ι) (done : ℕ)
  | crash (done : ℕ)
deriving DecidableEq

/-- Why a run has no value. -/
inductive Stop (ε : Type) where
  | error (e : ε)
  | crashed
deriving DecidableEq

namespace Fault

variable {ι : Type}

def done : Fault ι → ℕ
  | fail _ done => done
  | crash done => done

def stop : Fault ι → Stop ι
  | fail e _ => .error e
  | crash _ => .crashed

end Fault

def Stop.map {ε ε' : Type} (f : ε → ε') : Stop ε → Stop ε'
  | .error e => .error (f e)
  | .crashed => .crashed

/-- The fault of each operation of a run, by its number. -/
abbrev Schedule (ι : Type) := ℕ → Option (Fault ι)

/-- How many operations have been begun, and the files. -/
structure State (π β : Type) where
  ops : ℕ
  files : Files π β

/-- A program whose operations fail with an `ι` and that itself fails with an `ε`. -/
structure Prog (π β ι ε α : Type) where
  run : Schedule ι → State π β → Except (Stop ε) α × State π β

namespace Prog

variable {π β ι ε ε' α α' : Type}

def bind (m : Prog π β ι ε α) (f : α → Prog π β ι ε α') : Prog π β ι ε α' where
  run sched s :=
    match m.run sched s with
    | (.ok a, s) => (f a).run sched s
    | (.error stop, s) => (.error stop, s)

instance : Monad (Prog π β ι ε) where
  pure a := ⟨fun _ s => (.ok a, s)⟩
  bind := bind

/-- The error of a part of a program, as an error of the program. -/
def mapError (f : ε → ε') (m : Prog π β ι ε α) : Prog π β ι ε' α where
  run sched s :=
    match m.run sched s with
    | (.ok a, s) => (.ok a, s)
    | (.error stop, s) => (.error (stop.map f), s)

/-- A part that does not touch the files. -/
def ofExcept (r : Except ε α) : Prog π β ι ε α where
  run _ s := (r.mapError .error, s)

/-- Look at the files. -/
def files : Prog π β ι ε (Files π β) where
  run _ s := (.ok s.files, s)

/-- One operation: what it does to the files, in full or as far as it gets. -/
def operate (effect : Option ℕ → Files π β → Files π β) : Prog π β ι ι Unit where
  run sched s :=
    match sched s.ops with
    | none => (.ok (), ⟨s.ops + 1, effect none s.files⟩)
    | some fault => (.error fault.stop, ⟨s.ops + 1, effect (some fault.done) s.files⟩)

/-- Create a directory; the files stay as they are. -/
def createDirAll : Prog π β ι ι Unit := operate fun _ fs => fs

variable [DecidableEq π]

/-- Create the file, or empty it. -/
def openTruncated (path : π) : Prog π β ι ι Unit :=
  operate fun
    | some 0, fs => fs
    | _, fs => Function.update fs path (some [])

/-- Write to the end of the file. -/
def writeAll (path : π) (content : List β) : Prog π β ι ι Unit :=
  operate fun
    | none, fs => Function.update fs path ((fs path).map (· ++ content))
    | some done, fs => Function.update fs path ((fs path).map (· ++ content.take done))

/-- Replace a file in place. -/
def writeFile (path : π) (content : List β) : Prog π β ι ι Unit := do
  openTruncated path
  writeAll path content

end Prog

open Prog

variable {π β ι ε ε' α α' : Type} {sched : Schedule ι} {s s' : State π β}

/-! ### Sequences -/

section

variable {m : Prog π β ι ε α} {f : α → Prog π β ι ε α'} {a : α} {stop : Stop ε}

theorem run_bind_of_ok (h : m.run sched s = (.ok a, s')) : (m >>= f).run sched s = (f a).run sched s' := by
  change (m.bind f).run sched s = _
  simp only [Prog.bind, h]

theorem run_bind_of_error (h : m.run sched s = (.error stop, s')) :
    (m >>= f).run sched s = (.error stop, s') := by
  change (m.bind f).run sched s = _
  simp only [Prog.bind, h]

theorem run_mapError_of_ok {g : ε → ε'} (h : m.run sched s = (.ok a, s')) :
    (m.mapError g).run sched s = (.ok a, s') := by
  simp only [mapError, h]

theorem run_mapError_of_error {g : ε → ε'} (h : m.run sched s = (.error stop, s')) :
    (m.mapError g).run sched s = (.error (stop.map g), s') := by
  simp only [mapError, h]

end

/-! ### Replacing a file -/

/-- No fault in the two operations that replace a file. -/
def Clear (sched : Schedule ι) (n : ℕ) : Prop := sched n = none ∧ sched (n + 1) = none

instance [DecidableEq ι] (sched : Schedule ι) (n : ℕ) : Decidable (Clear sched n) :=
  inferInstanceAs (Decidable (_ ∧ _))

/-- How many of `len` elements are in the file after replacing it by the operations from number `n` on;
`none` if the file is as it was. -/
def extent (sched : Schedule ι) (n len : ℕ) : Option ℕ :=
  match sched n with
  | some fault => if fault.done = 0 then none else some 0
  | none =>
      match sched (n + 1) with
      | some fault => some fault.done
      | none => some len

theorem extent_of_clear {n : ℕ} (h : Clear sched n) (len : ℕ) : extent sched n len = some len := by
  rw [extent, h.1, h.2]

variable [DecidableEq π]

/-- The files after so much of the content has been written. -/
def written (path : π) (content : List β) (fs : Files π β) : Option ℕ → Files π β
  | none => fs
  | some done => Function.update fs path (some (content.take done))

section

variable {path : π} {content : List β}

theorem openTruncated_of_none (h : sched s.ops = none) :
    (openTruncated path).run sched s = (.ok (), ⟨s.ops + 1, Function.update s.files path (some [])⟩) := by
  simp only [openTruncated, operate, h]

theorem writeFile_of_clear (h : Clear sched s.ops) :
    (writeFile path content).run sched s =
      (.ok (), ⟨s.ops + 2, Function.update s.files path (some content)⟩) := by
  rw [writeFile, run_bind_of_ok (openTruncated_of_none h.1)]
  simp only [writeAll, operate, h.2, Function.update_self, Option.map_some, List.nil_append,
    Function.update_idem]

theorem writeFile_of_fault (h : ¬ Clear sched s.ops) :
    ∃ stop n, (writeFile path content).run sched s =
      (.error stop, ⟨n, written path content s.files (extent sched s.ops content.length)⟩) := by
  cases hopen : sched s.ops with
  | some fault =>
      have hrun : (openTruncated path).run sched s = (.error fault.stop,
          ⟨s.ops + 1, written path content s.files (if fault.done = 0 then none else some 0)⟩) := by
        simp only [openTruncated, operate, hopen]
        cases fault.done <;> rfl
      simp only [extent, hopen]
      exact ⟨_, _, run_bind_of_error hrun⟩
  | none =>
      cases hwrite : sched (s.ops + 1) with
      | none => exact absurd ⟨hopen, hwrite⟩ h
      | some fault =>
          simp only [extent, hopen, hwrite]
          refine ⟨fault.stop, s.ops + 2, ?_⟩
          rw [writeFile, run_bind_of_ok (openTruncated_of_none hopen)]
          simp only [writeAll, operate, hwrite, Function.update_self, Option.map_some, List.nil_append,
            Function.update_idem, written]

end

end FaultyFiles
