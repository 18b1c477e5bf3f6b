import DistributedLabs.Lib.Publication

/-! What the executions of a pool deliver: an execution that ends without an error has published all its outputs, and
    what is published stays so. Where it is known what each output may hold, the final files hold that, and a temporary
    file that is left over is not too long to be written over. -/

namespace Publication.Pool

open FileSystem Table

variable {O B : Type} {s s' : Pool O B} {a : Action O B} {x : Execution O B} {fs fs' : FS (Name O) B}
  {p p' : Process (Name O) B}

/-! ### Processes -/

/-- A process opens and removes temporary files only, and gives each its own final name. -/
structure Tidy (p : Process (Name O) B) : Prop where
  opens : ∀ name, .openTemp name ∈ p.todo → ∃ o, name = .temp o
  renames : ∀ old new, .rename old new ∈ p.todo → ∃ o, old = .temp o ∧ new = .final o
  defers : ∀ name ∈ p.defers, ∃ o, name = .temp o

theorem mem_publishAll {outputs : List (O × List (List B))} {op : Op (Name O) B} (h : op ∈ publishAll outputs) :
    ∃ y ∈ outputs, op = .openTemp (.temp y.1) ∨ op = .rename (.temp y.1) (.final y.1) ∨ ∃ chunk, op = .write chunk := by
  obtain ⟨y, hy, hop⟩ := List.mem_flatMap.mp h
  refine ⟨y, hy, ?_⟩
  rcases List.mem_cons.mp hop with rfl | hop
  · exact Or.inl rfl
  rcases List.mem_append.mp hop with hop | hop
  · obtain ⟨chunk, -, rfl⟩ := List.mem_map.mp hop
    exact Or.inr (Or.inr ⟨chunk, rfl⟩)
  · exact Or.inr (Or.inl (List.mem_singleton.mp hop))

theorem tidy_start (outputs : List (O × List (List B))) : Tidy (.start (publishAll outputs)) := by
  refine ⟨fun name h => ?_, fun old new h => ?_, fun name h => by cases h⟩
  · obtain ⟨y, -, heq | heq | ⟨_, heq⟩⟩ := mem_publishAll h <;> cases heq
    exact ⟨y.1, rfl⟩
  · obtain ⟨y, -, heq | heq | ⟨_, heq⟩⟩ := mem_publishAll h <;> cases heq
    exact ⟨y.1, rfl, rfl⟩

/-- The rest of the operations, and names that are removed anyway or that the first operation opens. -/
theorem Tidy.rest {op : Op (Name O) B} (h : Tidy p) (htodo : p.todo = op :: p'.todo)
    (hdefers : ∀ name ∈ p'.defers, name ∈ p.defers ∨ op = .openTemp name) : Tidy p' := by
  have tail : ∀ {op'}, op' ∈ p'.todo → op' ∈ p.todo := fun h' => htodo ▸ List.mem_cons_of_mem _ h'
  refine ⟨fun name h' => h.opens name (tail h'), fun old new h' => h.renames old new (tail h'), fun name h' => ?_⟩
  rcases hdefers name h' with h' | rfl
  · exact h.defers name h'
  · exact h.opens name (htodo ▸ List.mem_cons_self)

/-- Nothing more to do than to remove files. -/
theorem Tidy.emptied (h : Tidy p) (htodo : p'.todo = []) (hdefers : ∀ name ∈ p'.defers, name ∈ p.defers) : Tidy p' := by
  refine ⟨fun name h' => ?_, fun old new h' => ?_, fun name h' => h.defers name (hdefers name h')⟩
  · rw [htodo] at h'
    cases h'
  · rw [htodo] at h'
    cases h'

/-- As long as there was no error, each output is published or still to be renamed. -/
def Delivered (fs : FS (Name O) B) (outputs : List (O × List (List B))) (p : Process (Name O) B) : Prop :=
  p.ok = true → ∀ y ∈ outputs, (fs.names (.final y.1)).isSome ∨ .rename (.temp y.1) (.final y.1) ∈ p.todo

theorem delivered_start (fs : FS (Name O) B) (outputs : List (O × List (List B))) :
    Delivered fs outputs (.start (publishAll outputs)) := by
  intro _ y hy
  refine Or.inr (List.mem_flatMap.mpr ⟨y, hy, ?_⟩)
  exact List.mem_cons_of_mem _ (List.mem_append_right _ (List.mem_singleton_self _))

theorem Delivered.kept {outputs : List (O × List (List B))} (h : Delivered fs outputs p)
    (hkept : ∀ o, (fs.names (.final o)).isSome → (fs'.names (.final o)).isSome) : Delivered fs' outputs p :=
  fun hok y hy => (h hok y hy).imp_left (hkept y.1)

variable [DecidableEq O]

theorem Tidy.step (h : Tidy p) (hs : Process.Stepped p fs p' fs') : Tidy p' := by
  cases hs with
  | created htodo => exact h.rest htodo fun n hn => (List.mem_cons.mp hn).symm.imp_right fun heq => by rw [heq]
  | opened htodo => exact h.rest htodo fun n hn => (List.mem_cons.mp hn).symm.imp_right fun heq => by rw [heq]
  | wrote htodo => exact h.rest htodo fun n hn => Or.inl hn
  | renamed htodo => exact h.rest htodo fun n hn => Or.inl hn
  | unopened => exact h.emptied rfl fun n hn => hn
  | missing => exact h.emptied rfl fun n hn => hn
  | removed _ hdefers => exact h.emptied rfl fun n hn => hdefers ▸ List.mem_cons_of_mem _ hn

/-- No operation takes a final name away. -/
theorem Tidy.final_kept (h : Tidy p) (hs : Process.Stepped p fs p' fs') {o : O} (ho : (fs.names (.final o)).isSome) :
    (fs'.names (.final o)).isSome := by
  cases hs with
  | @created name todo htodo =>
    obtain ⟨o', rfl⟩ := h.opens name (htodo ▸ List.mem_cons_self)
    rwa [FS.create_names, Function.update_of_ne (by simp)]
  | @renamed old new inode todo htodo hsome =>
    obtain ⟨o', rfl, rfl⟩ := h.renames old new (htodo ▸ List.mem_cons_self)
    rw [FS.move_names, Function.update_apply]
    split
    · rw [hsome]
      rfl
    · rwa [Function.update_of_ne (by simp)]
  | @removed name names htodo hdefers =>
    obtain ⟨o', rfl⟩ := h.defers name (hdefers ▸ List.mem_cons_self)
    rwa [FS.remove_names, Function.update_of_ne (by simp)]
  | _ => exact ho

theorem Delivered.step {outputs : List (O × List (List B))} (h : Delivered fs outputs p) (ht : Tidy p)
    (hs : Process.Stepped p fs p' fs') : Delivered fs' outputs p' := by
  have hfs' := h.kept fun o => ht.final_kept hs
  -- An operation that renames nothing is not waited for.
  have rest : ∀ {op}, p.todo = op :: p'.todo → p'.ok = p.ok → (∀ y ∈ outputs, op ≠ .rename (.temp y.1) (.final y.1)) →
      Delivered fs' outputs p' := by
    intro op htodo hok hop hok' y hy
    refine (hfs' (hok ▸ hok') y hy).imp_right fun hmem => ?_
    rw [htodo] at hmem
    exact (List.mem_cons.mp hmem).resolve_left (Ne.symm (hop y hy))
  cases hs with
  | created htodo => exact rest htodo rfl fun y _ => by simp
  | opened htodo => exact rest htodo rfl fun y _ => by simp
  | wrote htodo => exact rest htodo rfl fun y _ => by simp
  | @renamed old new inode todo htodo hsome =>
    intro hok y hy
    rcases hfs' hok y hy with hname | hmem
    · exact Or.inl hname
    rw [htodo] at hmem
    rcases List.mem_cons.mp hmem with heq | hmem
    · cases heq
      refine Or.inl ?_
      rw [FS.move_names, Function.update_self, hsome]
      rfl
    · exact Or.inr hmem
  | unopened =>
    intro hok
    cases hok
  | missing =>
    intro hok
    cases hok
  | removed htodo =>
    intro hok y hy
    have := hfs' hok y hy
    rwa [htodo] at this

/-! ### Pools -/

/-- Every execution publishes what is right for its outputs. -/
structure Delivering (right : O → List B → Prop) (s : Pool O B) : Prop where
  sound : s.Sound
  tidy : ∀ x ∈ s.executions, Tidy x.process
  outputs : ∀ x ∈ s.executions, ∀ y ∈ x.outputs, right y.1 y.2.flatten
  delivered : ∀ x ∈ s.executions, Delivered s.fs x.outputs x.process

variable {right : O → List B → Prop}

theorem Delivering.final_kept (h : s.Delivering right) (hs : Stepped s a s') {o : O}
    (ho : (s.fs.names (.final o)).isSome) : (s'.fs.names (.final o)).isSome := by
  cases hs with
  | advance hx _ hp => exact (h.tidy _ (List.mem_of_getElem? hx)).final_kept hp ho
  | _ => exact ho

/-- An execution after a step is an old one, has just started, or is an old one that did an operation or crashed. -/
theorem Stepped.execution (hs : Stepped s a s') (hx : x ∈ s'.executions) :
    x ∈ s.executions ∨ (∃ outputs, a = .start outputs ∧ x = ⟨outputs, .start (publishAll outputs), true⟩) ∨
      ∃ y ∈ s.executions, x.outputs = y.outputs ∧
        (Process.Stepped y.process s.fs x.process s'.fs ∨ x.process = y.process) := by
  cases hs with
  | @start outputs =>
    rcases List.mem_append.mp hx with hx | hx
    · exact Or.inl hx
    · exact Or.inr (Or.inl ⟨outputs, rfl, List.mem_singleton.mp hx⟩)
  | @advance k y p fs hy _ hp =>
    rcases List.mem_or_eq_of_mem_set hx with hx | rfl
    · exact Or.inl hx
    · exact Or.inr (Or.inr ⟨y, List.mem_of_getElem? hy, rfl, Or.inl hp⟩)
  | @crash k y hy =>
    rcases List.mem_or_eq_of_mem_set hx with hx | rfl
    · exact Or.inl hx
    · exact Or.inr (Or.inr ⟨y, List.mem_of_getElem? hy, rfl, Or.inr rfl⟩)

/-- An execution stays where it is, with its outputs. -/
theorem Stepped.execution_kept (hs : Stepped s a s') {e : Nat} (hx : s.executions[e]? = some x) :
    ∃ x', s'.executions[e]? = some x' ∧ x'.outputs = x.outputs := by
  -- Setting an execution keeps its outputs, and another one altogether.
  have set : ∀ {k y p alive}, s.executions[k]? = some y →
      ∃ x', (s.executions.set k ⟨y.outputs, p, alive⟩)[e]? = some x' ∧ x'.outputs = x.outputs := by
    intro k y p alive hy
    have hlt := (List.getElem?_eq_some_iff.mp hx).1
    by_cases hk : k = e
    · subst hk
      rw [hx] at hy
      cases hy
      exact ⟨_, List.getElem?_set_self hlt, rfl⟩
    · exact ⟨x, by rw [List.getElem?_set_ne hk, hx], rfl⟩
  cases hs with
  | start => exact ⟨x, by rw [start_executions, List.getElem?_append_left (List.getElem?_eq_some_iff.mp hx).1, hx], rfl⟩
  | advance hy => exact set hy
  | crash hy => exact set hy

theorem Delivering.step (h : s.Delivering right) (hg : s.Exclusive a)
    (hstart : ∀ outputs, a = .start outputs → ∀ y ∈ outputs, right y.1 y.2.flatten) (hs : Stepped s a s') :
    s'.Delivering right := by
  have kept : ∀ o, (s.fs.names (.final o)).isSome → (s'.fs.names (.final o)).isSome := fun o => h.final_kept hs
  refine ⟨h.sound.step hg hs, fun x hx => ?_, fun x hx => ?_, fun x hx => ?_⟩
  · rcases hs.execution hx with hx | ⟨outputs, -, rfl⟩ | ⟨y, hy, -, hp | hp⟩
    · exact h.tidy x hx
    · exact tidy_start outputs
    · exact (h.tidy y hy).step hp
    · rw [hp]
      exact h.tidy y hy
  · rcases hs.execution hx with hx | ⟨outputs, ha, rfl⟩ | ⟨y, hy, ho, -⟩
    · exact h.outputs x hx
    · exact hstart outputs ha
    · rw [ho]
      exact h.outputs y hy
  · rcases hs.execution hx with hx | ⟨outputs, -, rfl⟩ | ⟨y, hy, ho, hp | hp⟩
    · exact (h.delivered x hx).kept kept
    · exact delivered_start _ outputs
    · rw [ho]
      exact (h.delivered y hy).step (h.tidy y hy) hp
    · rw [ho, hp]
      exact (h.delivered y hy).kept kept

omit [DecidableEq O] in
/-- An execution at its end has published all its outputs. -/
theorem Delivering.ended (h : s.Delivering right) (hx : x ∈ s.executions) (hend : x.process.todo = [])
    (hok : x.process.ok = true) : ∀ y ∈ x.outputs, (s.fs.names (.final y.1)).isSome := by
  intro y hy
  refine (h.delivered x hx hok y hy).resolve_right fun hmem => ?_
  rw [hend] at hmem
  cases hmem

omit [DecidableEq O] in
/-- What is published is right. -/
theorem Delivering.read (h : s.Delivering right) {o : O} (ho : (s.fs.names (.final o)).isSome) :
    ∃ content, s.fs.read (.final o) = some content ∧ right o content := by
  obtain ⟨inode, hname⟩ := Option.isSome_iff_exists.mp ho
  obtain ⟨outputs, houts, chunks, hmem, hdata⟩ := h.sound.finals o inode hname
  obtain ⟨x, hx, rfl⟩ := List.mem_map.mp houts
  refine ⟨chunks.flatten, ?_, h.outputs x hx _ hmem⟩
  rw [FS.read, hname, Option.map_some, hdata]

/-! ### What is left over -/

/-- No temporary file is longer than its output. -/
def Fits (size : O → Nat) (s : Pool O B) : Prop :=
  ∀ o inode, s.fs.names (.temp o) = some inode → (s.fs.data inode).length ≤ size o

variable {size : O → Nat}

theorem Fits.step (h : s.Fits size) (hd : s.Delivering right) (hsize : ∀ o content, right o content → content.length = size o)
    (hs : Stepped s a s') : s'.Fits size := by
  cases hs with
  | start => exact h
  | crash => exact h
  | @advance k x p fs hx halive hp =>
    have hstage := hd.sound.stages k x hx halive
    have houts := hd.outputs x (List.mem_of_getElem? hx)
    intro o inode hn
    cases hp with
    | @created name todo htodo =>
      rw [advance_fs, FS.create_names, Function.update_apply] at hn
      rw [advance_fs, FS.create_data]
      split at hn
      · cases hn
        rw [Function.update_self]
        exact Nat.zero_le _
      · rw [Function.update_of_ne (Nat.ne_of_lt (s.fs.bounded _ _ hn))]
        exact h o inode hn
    | opened => exact h o inode hn
    | @wrote chunk todo hd' htodo hfile =>
      obtain ⟨o', hd'', written, rest, later, hfile', -, -, hout, hw⟩ := hstage.writes htodo
      rw [hfile] at hfile'
      cases hfile'
      rw [advance_fs, FS.write, FS.setData_data, Function.update_apply]
      split
      · -- The file that is written has no other name, and its old end is written over in time.
        rename_i hinode
        have ho : Name.temp o = .temp o' := by
          rw [← hw.name]
          exact hw.only _ (hinode ▸ hn)
        cases ho
        obtain ⟨tail, htail, hlen⟩ := hw.data
        have htotal := hsize _ _ (houts _ hout)
        rw [htail, hw.offset, overwrite_append]
        simp only [List.flatten_append, List.flatten_cons, List.length_append, List.length_drop] at hlen htotal ⊢
        omega
      · exact h o inode hn
    | unopened => exact h o inode hn
    | @renamed old new inode' todo htodo =>
      obtain ⟨o', -, -, -, -, rfl, rfl, -⟩ := hstage.renames htodo
      rw [advance_fs, FS.move_names, Function.update_of_ne (by simp), Function.update_apply] at hn
      split at hn
      · cases hn
      · exact h o inode hn
    | missing => exact h o inode hn
    | removed =>
      rw [advance_fs, FS.remove_names, Function.update_apply] at hn
      split at hn
      · cases hn
      · exact h o inode hn

omit [DecidableEq O] in
/-- An execution that is about to open a file has none open. -/
theorem Stage.closed (h : Stage fs x) {name : Name O} {todo : List (Op (Name O) B)}
    (htodo : x.process.todo = .openTemp name :: todo) : x.process.file = none := by
  cases h with
  | between hfile => exact hfile
  | @writing _ _ _ rest _ _ htodo' =>
    rw [htodo] at htodo'
    cases rest <;> cases htodo'

omit [DecidableEq O] in
/-- The open file of an execution is the temporary one of an output. -/
theorem Stage.writing_output (h : Stage fs x) {hd : Handle (Name O)} (hfile : x.process.file = some hd) :
    ∃ o, hd.name = .temp o ∧ o ∈ x.outputs.map Prod.fst := by
  cases h with
  | between hnone =>
    rw [hnone] at hfile
    cases hfile
  | writing hsome _ _ hout hw =>
    rw [hsome] at hfile
    cases hfile
    exact ⟨_, hw.name, List.mem_map.mpr ⟨_, hout, rfl⟩⟩

omit [DecidableEq O] in
/-- Where temporary files fit, it is enough that no other execution with an open file has an output in common. -/
theorem Fits.exclusive (h : s.Fits size) (hd : s.Delivering right)
    (hsize : ∀ o content, right o content → content.length = size o) {e : Nat} (hx : s.executions[e]? = some x)
    (halive : x.alive = true) (hfree : ∀ (e' : Nat) y, s.executions[e']? = some y → e' ≠ e → y.alive = true →
      y.process.file ≠ none → ∀ o ∈ x.outputs.map Prod.fst, o ∉ y.outputs.map Prod.fst) : s.Exclusive (.step e) := by
  rintro ⟨name, todo⟩ hopen
  simp only [opening, hx] at hopen
  split at hopen
  · rename_i name' todo' htodo
    cases hopen
    have hstage := hd.sound.stages e x hx halive
    obtain ⟨o, chunks, later, rfl, rfl, hout, -⟩ := hstage.opens htodo
    refine ⟨fun y hy hay hf hfile hname => ?_, fun inode hn => ?_⟩
    · obtain ⟨e', hy⟩ := List.mem_iff_getElem?.mp hy
      obtain ⟨o', ho', hmem⟩ := (hd.sound.stages e' y hy hay).writing_output hfile
      rw [hname] at ho'
      cases ho'
      refine hfree e' y hy ?_ hay (fun hnone => ?_) o (List.mem_map.mpr ⟨_, hout, rfl⟩) hmem
      · rintro rfl
        rw [hx] at hy
        cases hy
        rw [hstage.closed htodo] at hfile
        cases hfile
      · rw [hnone] at hfile
        cases hfile
    · rw [pending_writes, hsize _ _ (hd.outputs x (List.mem_of_getElem? hx) _ hout)]
      exact h o inode hn
  · cases hopen

end Publication.Pool
