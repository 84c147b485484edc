import Kernemul.Kernel.ContextRecords.Arm64
import Kernemul.Kernel.ContextRecords.X64

/-!
# Context records of both architectures

A context goes back to where it was taken from, and what is set from a context reads as that context, on the cpu and in
the bank of a thread. The mode is not part of a context on ARM64, and on x64 it is as far as the selector of user mode.
-/

namespace Kernemul.ContextRecords

variable (regs : RegView)

/-- Capturing and applying on x64, by one view and with nothing changed elsewhere. -/
structure X64.Transfers (m : X64.Cpu) (ctx ctx' : X64.Context) (flags : BitVec 32) : Prop where
  kept : X64.Kept (hasFlags flags X64.contextControl) (m.isUser regs) (m.file regs)
    ((X64.applyContext m regs (X64.captureContext m regs ctx flags)).file regs)
  replaced : X64.Replaced ctx (m.file regs) ((X64.applyContext m regs ctx).file regs)
  elsewhere : m.Elsewhere (X64.applyContext m regs ctx) regs
  returned : X64.Returned ctx (X64.captureContext (X64.applyContext m regs ctx) regs ctx' ctx.contextFlags)

structure Arm64.Transfers (m : Arm64.Cpu) (ctx ctx' : Arm64.Context) (flags : BitVec 32) : Prop where
  kept : Arm64.Kept (hasFlags flags Arm64.contextControl) (m.isUser regs) (m.file regs)
    ((Arm64.applyContext m regs (Arm64.captureContext m regs ctx flags)).file regs)
  replaced : Arm64.Replaced (m.isUser regs) ctx (m.file regs) ((Arm64.applyContext m regs ctx).file regs)
  elsewhere : m.Elsewhere (Arm64.applyContext m regs ctx) regs
  returned : Arm64.Returned ctx (Arm64.captureContext (Arm64.applyContext m regs ctx) regs ctx' ctx.contextFlags)

theorem transfers (flags : BitVec 32) :
    (∀ (m : X64.Cpu) (ctx ctx' : X64.Context), X64.Transfers regs m ctx ctx' flags) ∧
      ∀ (m : Arm64.Cpu) (ctx ctx' : Arm64.Context), Arm64.Transfers regs m ctx ctx' flags := by
  refine ⟨fun m ctx ctx' => ⟨X64.kept m regs ctx flags, ?_, m.elsewhere_modify regs _, X64.returned m regs ctx ctx'⟩,
    fun m ctx ctx' => ⟨Arm64.kept m regs ctx flags, ?_, m.elsewhere_modify regs _, Arm64.returned m regs ctx ctx'⟩⟩
  · rw [X64.applyContext, m.file_modify]
    exact X64.replaced_applied ctx (m.file regs)
  · rw [Arm64.applyContext, m.file_modify]
    exact Arm64.replaced_applied (m.isUser regs) ctx (m.file regs)

/-- The mode in a context does not come back, and a user thread that is in kernel mode does not stay there. -/
theorem mode_not_transferred :
    (¬ ∀ (m : Arm64.Cpu) regs (ctx ctx' : Arm64.Context), hasFlags ctx.contextFlags Arm64.contextControl →
      (Arm64.captureContext (Arm64.applyContext m regs ctx) regs ctx' ctx.contextFlags).cpsr = ctx.cpsr) ∧
    ¬ ∀ (m : X64.Cpu) regs ctx flags,
      ((X64.applyContext m regs (X64.captureContext m regs ctx flags)).file regs).seg .cs = (m.file regs).seg .cs := by
  constructor
  · intro h
    let regs : Arm64.Regs := ⟨fun _ => 0, fun _ => ⟨0, 0⟩, nofun⟩
    let m : Arm64.Cpu := { cpu := regs, current := some 8, bank := fun _ => regs, userMode := fun _ => true }
    let ctx : Arm64.Context := ⟨Arm64.contextControl, 0x5, fun _ => 0, 0, 0, 0, 0, fun _ => ⟨0, 0⟩, 0, 0⟩
    exact absurd (h m none ctx ctx (by decide)) (by decide)
  · intro h
    let regs : X64.Regs := ⟨fun _ => 0, fun _ => ⟨0, 0⟩, fun _ => ⟨X64.kernelCs, 0, 0xFFFFFFFF, 0xA09B⟩⟩
    let m : X64.Cpu := { cpu := regs, current := some 8, bank := fun _ => regs, userMode := fun _ => true }
    let ctx : X64.Context :=
      ⟨0, 0, 0, 0, 0, 0, 0, 0, 0, 0, 0, 0, 0, 0, 0, 0, 0, 0, 0, 0, 0, 0, 0, 0, 0, 0, 0, 0, fun _ => ⟨0, 0⟩⟩
    exact absurd (h m none ctx X64.contextControl) (by decide)

end Kernemul.ContextRecords
