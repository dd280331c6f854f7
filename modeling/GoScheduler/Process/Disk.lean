import GoScheduler.Table
import Mathlib.Data.List.Sort

/-! One directory of regular files, as running processes see it and as a disk keeps it.
A change of the entries is seen at once and is on disk only after the directory was
synced. A process that is killed leaves its changes seen and unsynced; a machine that
stops loses any of the unsynced changes, and the contents of files that were not synced. -/
namespace GoScheduler.Process

abbrev Bytes : Type := List UInt8

abbrev Name : Type := Bytes

structure File where
  bytes : Bytes
  synced : Bool
  deriving DecidableEq

abbrev Directory : Type := AList fun _ : Name => File

/-- Entries that change together: each name with the file it leads to afterwards. -/
abbrev Change : Type := List (Name × Option File)

namespace Directory

def assign (d : Directory) (w : Name × Option File) : Directory :=
  match w.2 with
  | some f => d.insert w.1 f
  | none => d.erase w.1

def apply (d : Directory) (c : Change) : Directory := c.foldl assign d

def applyAll (d : Directory) (cs : List Change) : Directory := cs.foldl apply d

def listing (d : Directory) : List Name := d.keys.insertionSort (· ≤ ·)

variable {d : Directory} {n : Name} {c : Change} {cs : List Change}

theorem mem_listing : n ∈ d.listing ↔ n ∈ d := by
  rw [listing, List.mem_insertionSort, AList.mem_keys]

theorem lookup_assign (d : Directory) (w : Name × Option File) (n : Name) :
    (d.assign w).lookup n = if n = w.1 then w.2 else d.lookup n := by
  obtain ⟨m, f⟩ := w
  by_cases h : n = m
  · subst h
    cases f with
    | some f => simp [assign]
    | none => simp [assign]
  · rw [if_neg h]
    cases f with
    | some f => exact AList.lookup_insert_ne h
    | none => exact AList.lookup_erase_ne h

theorem mem_assign_of_mem {w : Name × Option File} (h : n ∈ d) (hw : (n, none) ≠ w) :
    n ∈ d.assign w := by
  obtain ⟨m, f⟩ := w
  cases f with
  | some f => exact (AList.mem_insert d).2 (.inr h)
  | none =>
    have hne : n ≠ m := fun he => hw (by rw [he])
    exact AList.mem_erase.2 ⟨hne, h⟩

theorem mem_apply_of_mem (h : n ∈ d) (hc : (n, none) ∉ c) : n ∈ d.apply c := by
  induction c generalizing d with
  | nil => exact h
  | cons w c ih =>
    have hw : (n, none) ≠ w := fun he => hc (he ▸ List.mem_cons_self)
    exact ih (mem_assign_of_mem h hw) fun hm => hc (List.mem_cons_of_mem w hm)

/-- What a crash makes of the files that were not synced: any contents. -/
def garble (d : Directory) (garbage : Name → Bytes) : Directory :=
  d.apply (d.entries.filterMap fun e =>
    if e.2.synced then none else some (e.1, some ⟨garbage e.1, true⟩))

theorem mem_garble_of_mem (garbage : Name → Bytes) (h : n ∈ d) : n ∈ d.garble garbage := by
  refine mem_apply_of_mem h fun hm => ?_
  obtain ⟨e, -, he⟩ := List.mem_filterMap.1 hm
  split at he
  · cases he
  · simp at he

theorem mem_or_mem_of_mem_apply (h : n ∈ d.apply c) : n ∈ d ∨ n ∈ c.map Prod.fst := by
  induction c generalizing d with
  | nil => exact .inl h
  | cons w c ih =>
    rw [List.map_cons, List.mem_cons]
    rcases ih h with hassign | hrest
    · by_cases hw : n = w.1
      · exact .inr (.inl hw)
      · rw [← AList.lookup_isSome, lookup_assign, if_neg hw] at hassign
        exact .inl (AList.lookup_isSome.1 hassign)
    · exact .inr (.inr hrest)

theorem mem_garble (garbage : Name → Bytes) : n ∈ d.garble garbage ↔ n ∈ d := by
  refine ⟨fun h => (mem_or_mem_of_mem_apply h).elim id fun hm => ?_, mem_garble_of_mem garbage⟩
  obtain ⟨w, hw, rfl⟩ := List.mem_map.1 hm
  obtain ⟨e, he, heq⟩ := List.mem_filterMap.1 hw
  split at heq
  · cases heq
  · cases heq
    exact AList.mem_keys.2 (List.mem_map_of_mem he)

end Directory

/-- The entries on disk, and the changes since: those of processes that are gone, and
those of the one that runs. -/
structure Disk where
  durable : Directory
  orphaned : List Change
  pending : List Change

namespace Disk

def changes (d : Disk) : List Change := d.orphaned ++ d.pending

def visible (d : Disk) : Directory := d.durable.applyAll d.changes

def change (d : Disk) (c : Change) : Disk := { d with pending := d.pending ++ [c] }

def sync (d : Disk) : Disk := ⟨d.visible, [], []⟩

def abandon (d : Disk) : Disk := ⟨d.durable, d.changes, []⟩

/-- The machine stops: of the changes only `kept` have reached the disk. -/
def lose (d : Disk) (kept : List Change) (garbage : Name → Bytes) : Disk :=
  ⟨(d.durable.applyAll kept).garble garbage, [], []⟩

variable {d : Disk} {n : Name} {c : Change}

@[simp] theorem visible_change (d : Disk) (c : Change) :
    (d.change c).visible = d.visible.apply c := by
  rw [visible, visible, changes, changes, change, ← List.append_assoc, Directory.applyAll,
    List.foldl_append]
  rfl

@[simp] theorem visible_abandon (d : Disk) : d.abandon.visible = d.visible := by
  rw [visible, changes, abandon, List.append_nil]
  rfl

end Disk

end GoScheduler.Process
