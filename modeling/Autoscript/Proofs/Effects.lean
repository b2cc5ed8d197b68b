import Autoscript.Proofs.Termination
/-!
# Effects — a fault has none

An instruction can have popped its operands, moved a pointer or searched for the end of a function before it fails, and one
that tells the host something does so in the middle of its work.  `Hosted` is a machine under its host, with what the host
has been told in the state, so that a fault behind the telling would leave it told.  There is no such fault: the machine
that hands its effect back at the end of a step tells the host the same (`Hosted.step_eq`), and a step that fails leaves
the mode, the halt and the program alone as well.
-/
namespace Autoscript

open Machine (Fault)

/-- What an instruction can tell the host. -/
def Instr.Asks : Instr → Effect → Prop
  | .display offset, .display offset' _ => offset' = offset
  | .move, .move _ _ => True
  | .delay, .delay _ => True
  | _, _ => False

/-! ## What operations hand back -/

section
variable {σ α β : Type} {P : β → Prop}

/-- All that an operation hands back satisfies a condition. -/
def Yields (P : β → Prop) (x : EStateM Fault σ β) : Prop := ∀ s b t, x s = .ok b t → P b

theorem yields_pure {b : β} (h : P b) : Yields P (pure b : EStateM Fault σ β) := fun s b t hs => by
  cases hs
  exact h

theorem yields_throw (f : Fault) : Yields P (throw f : EStateM Fault σ β) := fun s b t hs => by cases hs

theorem yields_bind {x : EStateM Fault σ α} {f : α → EStateM Fault σ β} (hf : ∀ a, Yields P (f a)) : Yields P (x >>= f) := by
  intro s b t hs
  obtain ⟨a, u, -, hu⟩ := Machine.bind_ok hs
  exact hf a u b t hu

end

namespace Machine

/-- **An instruction hands back what it can tell the host**, and nothing if it can tell nothing. -/
theorem yields_execute (i : Instr) (pos : Nat) : Yields (fun e : Option Effect => ∀ a ∈ e, i.Asks a) (execute i pos) := by
  have hnone : Yields (fun e : Option Effect => ∀ a ∈ e, i.Asks a) (pure none : Op (Option Effect)) :=
    yields_pure fun a ha => by cases ha
  cases i with
  | halt | mode | pushImm | setupFrame | freeFrame => exact yields_bind fun _ => hnone
  | pushVar | storeVar => exact yields_bind fun _ => yields_bind fun _ => hnone
  | startFunc => exact yields_bind fun _ => yields_bind fun _ => yields_bind fun _ => hnone
  | arith =>
    exact yields_bind fun _ => yields_bind fun _ => yields_bind fun _ => yields_bind fun _ => yields_bind fun _ => hnone
  | endFunc | call => exact yields_throw _
  | display offset =>
    refine yields_bind fun _ => yields_bind fun _ => yields_pure fun a ha => ?_
    cases ha
    rfl
  | move | delay =>
    refine yields_bind fun _ => yields_bind fun _ => yields_pure fun a ha => ?_
    cases ha
    trivial

/-! ## What a fault leaves alone -/

/-- The parts of a machine beside its stack. -/
def registers (m : Machine) : Nat × Ty × Bool := (m.ip, m.mode, m.halted)

theorem registers_onStack {α : Type} (op : Stack.Op α) (v : Nat × Ty × Bool) :
    Keeps (fun m => m.registers = v) (onStack op) := by
  intro m hm
  unfold onStack
  split <;> exact hm

theorem registers_orFault {α : Type} (f : Fault) (o : Option α) (v : Nat × Ty × Bool) :
    Keeps (fun m => m.registers = v) (orFault f o) := by
  cases o with
  | none => exact keeps_throw f
  | some a => exact keeps_pure a

/-- **An instruction that fails leaves the registers alone.** -/
theorem registers_of_fault {i : Instr} {pos : Nat} {m m' : Machine} {f : Fault} (h : execute i pos m = .error f m') :
    m'.registers = m.registers := by
  have hstack {α : Type} (op : Stack.Op α) := registers_onStack op m.registers
  have hfault {α : Type} (f : Fault) (o : Option α) := registers_orFault f o m.registers
  -- whatever only works on the stack leaves them alone also where it succeeds
  have hkept (hk : Keeps (fun n => n.registers = m.registers) (execute i pos)) : m'.registers = m.registers := by
    have hend := hk m rfl
    rw [h] at hend
    exact hend
  cases i with
  | halt | mode => cases h
  | startFunc =>
    rw [execute_startFunc] at h
    split at h
    · cases h
    · cases h
      rfl
  | endFunc | call => cases h; rfl
  | arith op =>
    exact hkept <| keeps_bind (hstack _) fun _ => keeps_bind (hstack _) fun _ => keeps_bind keeps_get fun _ =>
      keeps_bind (hfault _ _) fun _ => keeps_bind (hstack _) fun _ => keeps_pure _
  | pushImm | setupFrame | freeFrame => exact hkept <| keeps_bind (hstack _) fun _ => keeps_pure _
  | pushVar | storeVar | move =>
    exact hkept <| keeps_bind (hstack _) fun _ => keeps_bind (hstack _) fun _ => keeps_pure _
  | display offset => exact hkept <| keeps_bind (hstack _) fun _ => keeps_bind keeps_get fun _ => keeps_pure _
  | delay => exact hkept <| keeps_bind (hstack _) fun _ => keeps_bind (hfault _ _) fun _ => keeps_pure _

/-- The bytes of the program in the memory. -/
def image (m : Machine) : List UInt8 := m.stack.memory.slice 0 m.stack.floor

theorem Intact.image_eq {program : List UInt8} {budget : Nat} {m : Machine} (h : Intact program budget m) :
    m.image = program := by
  rw [Machine.image, h.floor]
  exact Stack.Intact.image h

end Machine

/-! ## A machine under its host -/

/-- A machine, and what its host has been told so far. -/
structure Hosted where
  machine : Machine
  told : List Effect

namespace Hosted

abbrev Op := EStateM Fault Hosted

/-- An operation of the machine that the host has no part in. -/
def apart {α : Type} (op : Machine.Op α) : Op α := fun a =>
  match op a.machine with
  | .ok x machine => .ok x { a with machine }
  | .error f machine => .error f { a with machine }

def tell (e : Effect) : Op Unit := modify fun a => { a with told := a.told ++ [e] }

/-- Carries out an instruction.  The host is told as soon as it is known what. -/
def execute (i : Instr) (pos : Nat) : Op Unit :=
  match i with
  | .display offset => do
    let w ← apart (Machine.read offset)
    tell (.display offset ((← get).machine.mode.read w))
  | .move => do
    let y ← apart Machine.pop
    let x ← apart Machine.pop
    tell (.move (Word.toInt x) (Word.toInt y))
  | .delay => do
    let w ← apart Machine.pop
    let ns ← apart (Machine.orFault (.invalidDelay ⟨w⟩) (Single.nanoseconds? ⟨w⟩))
    tell (.delay ns)
  | i => do
    let _ ← apart (Machine.execute i pos)

def step : Op Unit := fun a =>
  match Instr.decode a.machine.program a.machine.ip with
  | .error e => .error (.decode e) a
  | .ok i => execute i a.machine.ip { a with machine := { a.machine with ip := a.machine.ip + i.width } }

/-- What the host has been told once the machine has handed back its effect, or has failed. -/
def handed (told : List Effect) : EStateM.Result Fault Machine (Option Effect) → EStateM.Result Fault Hosted Unit
  | .ok e machine => .ok () ⟨machine, told ++ e.toList⟩
  | .error f machine => .error f ⟨machine, told⟩

theorem apart_eq_handed {i : Instr} (hi : ∀ e, ¬ i.Asks e) (pos : Nat) (m : Machine) (told : List Effect) :
    (apart (Machine.execute i pos) >>= fun _ => pure ()) ⟨m, told⟩ = handed told (Machine.execute i pos m) := by
  simp only [bind, EStateM.bind, apart]
  cases hm : Machine.execute i pos m with
  | error f m' => rfl
  | ok e m' =>
    cases e with
    | none => simp [handed, pure, EStateM.pure]
    | some e => exact absurd (Machine.yields_execute i pos m _ m' hm e rfl) (hi e)

/-- What the machine does before it tells something is the same under its host. -/
theorem bind_eq_handed {α : Type} {op : Machine.Op α} {f : α → Machine.Op (Option Effect)} {g : α → Op Unit}
    {told : List Effect} (h : ∀ x m, g x ⟨m, told⟩ = handed told (f x m)) (m : Machine) :
    (apart op >>= g) ⟨m, told⟩ = handed told ((op >>= f) m) := by
  simp only [bind, EStateM.bind, apart]
  cases op m with
  | error e m' => rfl
  | ok x m' => exact h x m'

/-- **The host is told what the machine hands back**, and nothing if it fails. -/
theorem execute_eq (i : Instr) (pos : Nat) (m : Machine) (told : List Effect) :
    execute i pos ⟨m, told⟩ = handed told (Machine.execute i pos m) := by
  cases i with
  | display offset => exact bind_eq_handed (fun _ _ => rfl) m
  | move | delay => exact bind_eq_handed (fun _ m' => bind_eq_handed (fun _ _ => rfl) m') m
  | halt | mode | arith | pushImm | pushVar | storeVar | setupFrame | freeFrame | startFunc | endFunc | call =>
    refine apart_eq_handed ?_ pos m told
    exact fun e he => he

theorem step_eq (m : Machine) (told : List Effect) : step ⟨m, told⟩ = handed told (Machine.step m) := by
  unfold step Machine.step
  simp only
  cases Instr.decode m.program m.ip with
  | error e => rfl
  | ok i => exact execute_eq i m.ip { m with ip := m.ip + i.width } told

/-! ## A step that fails -/

/-- **What a step that fails leaves alone**: what the host was told, the mode, the halt and the program.  The pointer has
moved past the instruction if there is one. -/
structure Unaffected (a b : Hosted) : Prop where
  told : b.told = a.told
  mode : b.machine.mode = a.machine.mode
  halted : b.machine.halted = a.machine.halted
  image : b.machine.image = a.machine.image
  undecoded : ∀ e, Instr.decode a.machine.program a.machine.ip = .error e → b.machine.ip = a.machine.ip
  decoded : ∀ i, Instr.decode a.machine.program a.machine.ip = .ok i → b.machine.ip = a.machine.ip + i.width

variable {program : List UInt8} {budget : Nat} {m : Machine} {told : List Effect} {f : Fault}

theorem step_error {b : Hosted} (h : step ⟨m, told⟩ = .error f b) : Machine.step m = .error f b.machine ∧ b.told = told := by
  rw [step_eq] at h
  cases hs : Machine.step m with
  | ok e m' =>
    rw [hs] at h
    cases h
  | error g m' =>
    rw [hs] at h
    cases h
    exact ⟨rfl, rfl⟩

theorem step_ok {b : Hosted} (h : step ⟨m, told⟩ = .ok () b) :
    ∃ e, Machine.step m = .ok e b.machine ∧ b.told = told ++ e.toList := by
  rw [step_eq] at h
  cases hs : Machine.step m with
  | ok e m' =>
    rw [hs] at h
    cases h
    exact ⟨e, rfl, rfl⟩
  | error g m' =>
    rw [hs] at h
    cases h

theorem unaffected_of_fault (hb : budget < 0x100000000) (hm : m.Intact program budget) {b : Hosted}
    (h : step ⟨m, told⟩ = .error f b) : Unaffected ⟨m, told⟩ b := by
  obtain ⟨hs, htold⟩ := step_error h
  have hkept : b.machine.Intact program budget := by
    have hk := Machine.keeps_step hb m hm
    rw [hs] at hk
    exact hk
  have himage : b.machine.image = m.image := hkept.image_eq.trans hm.image_eq.symm
  unfold Machine.step at hs
  cases hd : Instr.decode m.program m.ip with
  | error e =>
    rw [hd] at hs
    cases hs
    exact ⟨htold, rfl, rfl, himage, fun _ _ => rfl, fun i hi => (by cases hd.symm.trans hi)⟩
  | ok i =>
    rw [hd] at hs
    have hr := Machine.registers_of_fault hs
    simp only [Machine.registers, Prod.mk.injEq] at hr
    obtain ⟨hip, hmode, hhalted⟩ := hr
    refine ⟨htold, hmode, hhalted, himage, fun e he => (by cases hd.symm.trans he), fun j hj => ?_⟩
    cases hd.symm.trans hj
    exact hip

/-! ## A run that fails -/

/-- **Steps that succeed**, one behind the other: the states that they are taken in, and the one that they lead to. -/
inductive Steps : Hosted → List Hosted → Hosted → Prop where
  | none (a : Hosted) : Steps a [] a
  | next {a b c : Hosted} {rest : List Hosted} : a.machine.halted = false → step a = .ok () b → Steps b rest c →
      Steps a (a :: rest) c

/-- A step has told the host nothing, or what its instruction can tell. -/
def Discreet (a : Hosted) : Prop := ∃ i b, Instr.decode a.machine.program a.machine.ip = .ok i ∧ step a = .ok () b ∧
  (b.told = a.told ∨ ∃ e, i.Asks e ∧ b.told = a.told ++ [e])

theorem discreet_of_step {a b : Hosted} (h : step a = .ok () b) : Discreet a := by
  obtain ⟨e, hs, htold⟩ := step_ok h
  unfold Machine.step at hs
  split at hs
  · cases hs
  · rename_i i hd
    refine ⟨i, b, hd, h, ?_⟩
    have hasks := Machine.yields_execute i a.machine.ip _ _ _ hs
    cases e with
    | none => exact .inl (by rw [htold]; exact List.append_nil _)
    | some e => exact .inr ⟨e, hasks e rfl, htold⟩

theorem Steps.discreet {a b : Hosted} {before : List Hosted} (h : Steps a before b) : ∀ c ∈ before, Discreet c := by
  induction h with
  | none => intro c hc; cases hc
  | next _ hs _ ih =>
    intro c hc
    rcases List.mem_cons.1 hc with rfl | hc
    · exact discreet_of_step hs
    · exact ih c hc

/-- **The host has been told the effects of the steps that succeeded**, in their order. -/
theorem Steps.told_eq {a b : Hosted} {before : List Hosted} (h : Steps a before b) :
    b.told = a.told ++ before.filterMap fun c => c.machine.stepEffect := by
  induction h with
  | none => simp
  | @next a b c rest _ hs _ ih =>
    obtain ⟨e, hm, htold⟩ := step_ok hs
    have he : a.machine.stepEffect = e := by rw [Machine.stepEffect, hm]
    rw [ih, htold, List.append_assoc, List.filterMap_cons, he]
    cases e <;> rfl

/-- **A run that fails**: steps that succeed, and one that fails. -/
theorem steps_of_runs {calls : List Machine} {r : Machine.Run} (h : Machine.Runs m calls r) (hf : r.fault = some f) :
    ∀ told, ∃ before last, Steps ⟨m, told⟩ before last ∧ last.machine.halted = false ∧
      step last = .error f ⟨r.machine, told ++ r.effects⟩ := by
  induction h with
  | halted => cases hf
  | @fault m m' g hm hs =>
    cases hf
    intro told
    refine ⟨[], ⟨m, told⟩, .none _, hm, ?_⟩
    rw [step_eq, hs, List.append_nil]
    rfl
  | @step m m' e calls r hm hs _ ih =>
    intro told
    obtain ⟨before, last, hsteps, hlast, hfault⟩ := ih hf (told ++ e.toList)
    refine ⟨⟨m, told⟩ :: before, last, .next hm ?_ hsteps, hlast, ?_⟩
    · rw [step_eq, hs]
      rfl
    · rw [hfault, List.append_assoc]

end Hosted

namespace Machine

variable {program : List UInt8} {budget : Nat} {m : Machine}

/-- **Nothing happens at a fault or past it.**  In whatever state a loaded program is, by its own steps or from outside, a
step that fails leaves what the host was told, the mode, the halt and the program as they were, and the pointer behind the
instruction, or where it is if there is none.  So the host of a run that fails has been told exactly the effects of the
steps before the one that fails, in their order, and only by instructions that tell something. -/
theorem no_effect_at_fault (h : load program budget = .ok m) :
    (∀ (actions : List Action) (told : List Effect) (f : Fault) (b : Hosted),
      Hosted.step ⟨actions.foldl perform m, told⟩ = .error f b → Hosted.Unaffected ⟨actions.foldl perform m, told⟩ b) ∧
    ∀ f, m.run.fault = some f → ∃ before last, Hosted.Steps ⟨m, []⟩ before last ∧ last.machine.halted = false ∧
      Hosted.step last = .error f ⟨m.run.machine, m.run.effects⟩ ∧
      m.run.effects = before.filterMap (fun a => a.machine.stepEffect) ∧ ∀ a ∈ before, a.Discreet := by
  have hb : budget < 0x100000000 := (load_ok h).2.1
  constructor
  · intro actions told f b hs
    exact Hosted.unaffected_of_fault hb (intact_performAll hb actions (intact_of_load h)) hs
  · intro f hf
    obtain ⟨before, last, hsteps, hlast, hfault⟩ := Hosted.steps_of_runs (runs_history m) hf []
    -- the step that fails adds nothing, so the host has been told what it had been told before it
    have htold : m.run.effects = last.told := (Hosted.step_error hfault).2
    exact ⟨before, last, hsteps, hlast, hfault, htold.trans hsteps.told_eq, hsteps.discreet⟩

/-- A negative delay that was pushed from outside, and a run that moves the cursor and then has no delay to pop. -/
theorem no_effect_at_missing_delay : ∃ m, load [1, 0, 0, 0, 3, 1, 0, 0, 0, 3, 2, 0, 0, 0, 0x0C, 0x0D] 24 = .ok m ∧
    (∃ b, Hosted.step ⟨([.push 0xBF800000, .setIp 15] : List Action).foldl perform m, [.delay 5]⟩ =
        .error (.invalidDelay ⟨0xBF800000⟩) b ∧ b.told = [.delay 5] ∧ b.machine.ip = 16) ∧
    m.run.fault = some (.stackUnderflow 24) ∧ m.run.effects = [.move 1 2] ∧
    ∃ before last, Hosted.Steps ⟨m, []⟩ before last ∧
      Hosted.step last = .error (.stackUnderflow 24) ⟨m.run.machine, [.move 1 2]⟩ := by
  obtain ⟨hstep, hrun⟩ := no_effect_at_fault
    (rfl : load [1, 0, 0, 0, 3, 1, 0, 0, 0, 3, 2, 0, 0, 0, 0x0C, 0x0D] 24 = .ok _)
  obtain ⟨before, last, hsteps, -, hfault, -, -⟩ := hrun (.stackUnderflow 24) (by decide +kernel)
  have hu := hstep [.push 0xBF800000, .setIp 15] [.delay 5] (.invalidDelay ⟨0xBF800000⟩) _ rfl
  have heffects : (⟨.ofMemory (.ofBytes 24 [1, 0, 0, 0, 3, 1, 0, 0, 0, 3, 2, 0, 0, 0, 0x0C, 0x0D]) 16, .int, 4, false⟩ :
      Machine).run.effects = [.move 1 2] := by decide +kernel
  exact ⟨_, rfl, ⟨_, rfl, hu.told, hu.decoded .delay rfl⟩, by decide +kernel, heffects, before, last, hsteps,
    heffects ▸ hfault⟩

end Machine
end Autoscript
