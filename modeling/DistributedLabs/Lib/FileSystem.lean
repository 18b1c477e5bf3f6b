import Mathlib.Logic.Function.Basic
import Mathlib.Logic.Relation
import Mathlib.Tactic.Simps.Basic

/-! A directory whose names stand for inodes, and processes that perform file operations on it one by one. A file is
    opened without truncation, an open file is written at an offset of its own, and the files that a process opened
    are removed by name when it ends. -/

namespace FileSystem

variable {N B : Type}

/-- No inode has two names, and an inode that is still to be given out has none. -/
structure FS (N B : Type) where
  names : N → Option Nat
  data : Nat → List B
  next : Nat
  bounded : ∀ name inode, names name = some inode → inode < next
  unique : ∀ name name' inode, names name = some inode → names name' = some inode → name = name'

/-- The bytes of `chunk` written over those from `offset` on. -/
def overwrite (l : List B) (offset : Nat) (chunk : List B) : List B :=
  l.take offset ++ chunk ++ l.drop (offset + chunk.length)

theorem overwrite_append (l tail chunk : List B) :
    overwrite (l ++ tail) l.length chunk = l ++ chunk ++ tail.drop chunk.length := by
  simp [overwrite, List.drop_append]

namespace FS

/-- An empty directory. -/
@[simps]
def empty (N B : Type) : FS N B where
  names := fun _ => none
  data := fun _ => []
  next := 0
  bounded _ _ h := by cases h
  unique _ _ _ h := by cases h

/-- What a name stands for. -/
def read (fs : FS N B) (name : N) : Option (List B) := (fs.names name).map fs.data

@[simps]
def setData (fs : FS N B) (inode : Nat) (content : List B) : FS N B where
  names := fs.names
  data := Function.update fs.data inode content
  next := fs.next
  bounded := fs.bounded
  unique := fs.unique

theorem setData_self (fs : FS N B) (inode : Nat) : fs.setData inode (fs.data inode) = fs := by
  cases fs
  simp [setData]

theorem setData_setData (fs : FS N B) (inode : Nat) (l l' : List B) :
    (fs.setData inode l).setData inode l' = fs.setData inode l' := by
  simp [setData]

/-- A write to an open file. No file shrinks, so the offset never lies behind its end. -/
def write (fs : FS N B) (inode offset : Nat) (chunk : List B) : FS N B :=
  fs.setData inode (overwrite (fs.data inode) offset chunk)

variable [DecidableEq N]

/-- A new file under a name. -/
@[simps]
def create (fs : FS N B) (name : N) : FS N B where
  names := Function.update fs.names name (some fs.next)
  data := Function.update fs.data fs.next []
  next := fs.next + 1
  bounded n inode h := by
    rw [Function.update_apply] at h
    split at h
    · cases h
      exact Nat.lt_succ_self _
    · exact Nat.lt_succ_of_lt (fs.bounded n inode h)
  unique n n' inode h h' := by
    rw [Function.update_apply] at h h'
    split at h <;> split at h'
    · rename_i hn hn'
      rw [hn, hn']
    · cases h
      exact absurd (fs.bounded n' _ h') (Nat.lt_irrefl _)
    · cases h'
      exact absurd (fs.bounded n _ h) (Nat.lt_irrefl _)
    · exact fs.unique n n' inode h h'

/-- Open with `O_RDWR|O_CREATE`: the inode of the name, which is created if there is none. -/
def openFile (fs : FS N B) (name : N) : FS N B × Nat :=
  match fs.names name with
  | some inode => (fs, inode)
  | none => (fs.create name, fs.next)

/-- Take a name away. -/
@[simps]
def remove (fs : FS N B) (name : N) : FS N B where
  names := Function.update fs.names name none
  data := fs.data
  next := fs.next
  bounded n inode h := by
    rw [Function.update_apply] at h
    split at h
    · cases h
    · exact fs.bounded n inode h
  unique n n' inode h h' := by
    rw [Function.update_apply] at h h'
    split at h
    · cases h
    · split at h'
      · cases h'
      · exact fs.unique n n' inode h h'

theorem remove_of_none {fs : FS N B} {name : N} (h : fs.names name = none) : fs.remove name = fs := by
  cases fs
  simp only [remove, FS.mk.injEq, and_true]
  exact Function.update_eq_self_iff.mpr h.symm

/-- Give the inode of `old` the name `new`, which may stand for another one before. -/
@[simps]
def move (fs : FS N B) (old new : N) : FS N B where
  names := Function.update (Function.update fs.names old none) new (fs.names old)
  data := fs.data
  next := fs.next
  bounded n inode h := by
    rw [Function.update_apply] at h
    split at h
    · exact fs.bounded old inode h
    · exact (fs.remove old).bounded n inode h
  unique n n' inode h h' := by
    -- Of the other names only `old` stood for the inode, and it is gone.
    have other : ∀ {x : N}, (fs.remove old).names x = some inode → fs.names old = some inode → False := by
      intro x hx hold
      rw [remove_names, Function.update_apply] at hx
      split at hx
      · cases hx
      · rename_i hne
        exact hne (fs.unique x old inode hx hold)
    rw [Function.update_apply] at h h'
    split at h <;> split at h'
    · rename_i hn hn'
      rw [hn, hn']
    · exact (other h' h).elim
    · exact (other h h').elim
    · exact (fs.remove old).unique n n' inode h h'

/-- Rename; an error if there is no such file. -/
def rename (fs : FS N B) (old new : N) : Option (FS N B) :=
  match fs.names old with
  | none => none
  | some _ => some (fs.move old new)

end FS

/-! ### Processes -/

inductive Op (N B : Type) where
  | openTemp (name : N)
  | write (chunk : List B)
  | rename (old new : N)
  deriving DecidableEq, Repr

/-- An open file, with the name it was opened by. -/
structure Handle (N : Type) where
  name : N
  inode : Nat
  offset : Nat
  deriving DecidableEq, Repr

/-- A process with the operations still to do, the file it writes, the names to remove at its end and whether it has
    met no error. -/
structure Process (N B : Type) where
  todo : List (Op N B)
  file : Option (Handle N)
  defers : List N
  ok : Bool
  deriving DecidableEq, Repr

namespace Process

@[simps]
def start (ops : List (Op N B)) : Process N B := ⟨ops, none, [], true⟩

@[simps]
def opened (p : Process N B) (todo : List (Op N B)) (name : N) (inode : Nat) : Process N B :=
  ⟨todo, some ⟨name, inode, 0⟩, name :: p.defers, p.ok⟩

@[simps]
def wrote (p : Process N B) (todo : List (Op N B)) (h : Handle N) (length : Nat) : Process N B :=
  ⟨todo, some ⟨h.name, h.inode, h.offset + length⟩, p.defers, p.ok⟩

@[simps]
def renamed (p : Process N B) (todo : List (Op N B)) : Process N B := ⟨todo, none, p.defers, p.ok⟩

/-- An error: what is left to do is to remove the opened files. -/
@[simps]
def failed (p : Process N B) : Process N B := ⟨[], none, p.defers, false⟩

@[simps]
def removed (p : Process N B) (names : List N) : Process N B := ⟨[], p.file, names, p.ok⟩

variable [DecidableEq N]

/-- The next operation of a process; `none` after its end. -/
def step (p : Process N B) (fs : FS N B) : Option (Process N B × FS N B) :=
  match p.todo with
  | .openTemp name :: todo => some (p.opened todo name (fs.openFile name).2, (fs.openFile name).1)
  | .write chunk :: todo =>
    match p.file with
    | none => some (p.failed, fs)
    | some h => some (p.wrote todo h chunk.length, fs.write h.inode h.offset chunk)
  | .rename old new :: todo =>
    match fs.rename old new with
    | none => some (p.failed, fs)
    | some fs' => some (p.renamed todo, fs')
  | [] =>
    match p.defers with
    | [] => none
    | name :: names => some (p.removed names, fs.remove name)

/-- What a step did, with what it found. -/
inductive Stepped (p : Process N B) (fs : FS N B) : Process N B → FS N B → Prop where
  | created {name : N} {todo : List (Op N B)} (htodo : p.todo = .openTemp name :: todo) (hnone : fs.names name = none) :
      Stepped p fs (p.opened todo name fs.next) (fs.create name)
  | opened {name : N} {inode : Nat} {todo : List (Op N B)} (htodo : p.todo = .openTemp name :: todo)
      (hsome : fs.names name = some inode) : Stepped p fs (p.opened todo name inode) fs
  | wrote {chunk : List B} {todo : List (Op N B)} {h : Handle N} (htodo : p.todo = .write chunk :: todo)
      (hfile : p.file = some h) : Stepped p fs (p.wrote todo h chunk.length) (fs.write h.inode h.offset chunk)
  | unopened {chunk : List B} {todo : List (Op N B)} (htodo : p.todo = .write chunk :: todo) (hfile : p.file = none) :
      Stepped p fs p.failed fs
  | renamed {old new : N} {inode : Nat} {todo : List (Op N B)} (htodo : p.todo = .rename old new :: todo)
      (hsome : fs.names old = some inode) : Stepped p fs (p.renamed todo) (fs.move old new)
  | missing {old new : N} {todo : List (Op N B)} (htodo : p.todo = .rename old new :: todo)
      (hnone : fs.names old = none) : Stepped p fs p.failed fs
  | removed {name : N} {names : List N} (htodo : p.todo = []) (hdefers : p.defers = name :: names) :
      Stepped p fs (p.removed names) (fs.remove name)

theorem step_inv {p p' : Process N B} {fs fs' : FS N B} (h : p.step fs = some (p', fs')) : Stepped p fs p' fs' := by
  simp only [step] at h
  split at h
  · rename_i name todo htodo
    cases hn : fs.names name with
    | none =>
      simp only [FS.openFile, hn, Option.some.injEq, Prod.mk.injEq] at h
      obtain ⟨rfl, rfl⟩ := h
      exact .created htodo hn
    | some inode =>
      simp only [FS.openFile, hn, Option.some.injEq, Prod.mk.injEq] at h
      obtain ⟨rfl, rfl⟩ := h
      exact .opened htodo hn
  · rename_i chunk todo htodo
    split at h
    · rename_i hfile
      cases h
      exact .unopened htodo hfile
    · rename_i handle hfile
      cases h
      exact .wrote htodo hfile
  · rename_i old new todo htodo
    cases hn : fs.names old with
    | none =>
      simp only [FS.rename, hn, Option.some.injEq, Prod.mk.injEq] at h
      obtain ⟨rfl, rfl⟩ := h
      exact .missing htodo hn
    | some inode =>
      simp only [FS.rename, hn, Option.some.injEq, Prod.mk.injEq] at h
      obtain ⟨rfl, rfl⟩ := h
      exact .renamed htodo hn
  · rename_i htodo
    split at h
    · cases h
    · rename_i name names hdefers
      cases h
      exact .removed htodo hdefers

/-- Every operation, and every removal that it leaves for the end. -/
def size (p : Process N B) : Nat := 2 * p.todo.length + p.defers.length

theorem Stepped.size_lt {p p' : Process N B} {fs fs' : FS N B} (h : Stepped p fs p' fs') : p'.size < p.size := by
  cases h with
  | created htodo => simp [size, htodo]; omega
  | opened htodo => simp [size, htodo]; omega
  | wrote htodo => simp [size, htodo]
  | unopened htodo => simp [size, htodo]
  | renamed htodo => simp [size, htodo]
  | missing htodo => simp [size, htodo]
  | removed htodo hdefers => simp [size, htodo, hdefers]

/-! ### A process alone -/

/-- Up to `k` operations in a row: the directory after them and whether the process met no error. -/
def run : Nat → Process N B → FS N B → FS N B × Bool
  | 0, p, fs => (fs, p.ok)
  | k + 1, p, fs =>
    match p.step fs with
    | none => (fs, p.ok)
    | some (p', fs') => run k p' fs'

/-- The process from its start to its end, with nothing in between. -/
def complete (p : Process N B) (fs : FS N B) : FS N B × Bool := p.run p.size fs

/-- Some operations in a row. -/
def Reaches (x y : Process N B × FS N B) : Prop := Relation.ReflTransGen (fun x y => x.1.step x.2 = some y) x y

/-- A process runs to the end that its operations reach. -/
theorem complete_of_reaches {p q : Process N B} {fs gs : FS N B} (h : Reaches (p, fs) (q, gs)) (hend : q.step gs = none) :
    p.complete fs = (gs, q.ok) := by
  have run_end : ∀ {k : Nat} {x : Process N B × FS N B}, Reaches x (q, gs) → x.1.size ≤ k → run k x.1 x.2 = (gs, q.ok) := by
    intro k
    induction k with
    | zero =>
      intro x hx hk
      rcases hx.cases_head with rfl | ⟨y, hy, -⟩
      · rfl
      · exact absurd (step_inv hy).size_lt (by omega)
    | succ k ih =>
      intro x hx hk
      rcases hx.cases_head with rfl | ⟨y, hy, hrest⟩
      · simp only [run, hend]
      · have hlt := (step_inv hy).size_lt
        simp only [run, hy]
        exact ih hrest (by omega)
  exact run_end h (Nat.le_refl _)

end Process

end FileSystem
