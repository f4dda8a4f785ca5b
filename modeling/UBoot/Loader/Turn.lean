import UBoot.Loader.Scheduler

/-!
# Turns of the loader, and the flash under it

What one turn does on a command that is accepted and answered, and what a flash does that
stores whole blocks.
-/
namespace UBoot.Loader
open ByteStore

section Turn
variable {σ : Type*} {env : Env σ} {s : State σ} {recv : Mem}

/-- The staging buffer has room for another packet. -/
def State.Roomy (s : State σ) : Prop := ¬ (s.maxCnt ≠ 0 ∧ s.maxCnt = s.threshold)

theorem flushFull_of_roomy (h : s.Roomy) : flushFull env s = s := if_neg h

theorem flushFull_roomy (s : State σ) : (flushFull env s).Roomy := by
  unfold flushFull
  split
  · rename_i hfull
    exact fun hroom => hroom.1 hroom.2
  · rename_i hroom
    exact hroom

/-- The loader is linked and goes on, and the packet is not refused. -/
structure Accepting (s : State σ) (recv : Mem) : Prop where
  linked : s.linked = true
  hung : s.hung = false
  flag : s.exp.flag = true → recv 0 = s.exp.cmdId

/-- The packet that the `switch` gets. -/
def State.payload (s : State σ) (recv : Mem) : Packet :=
  ⟨true, recv 0, sub16 (u16 s.downSize) (overhead (recv 0)),
    advance recv (overhead (recv 0) - cmdCrcSize)⟩

/-- The state that the `switch` gets. -/
def State.received (s : State σ) (recv : Mem) : State σ :=
  s.record (.subtract (u16 s.downSize) (overhead (recv 0)))

theorem loaderScheduler_of_accepting (h : Accepting s recv) : loaderScheduler env s recv =
    finish env (dispatch env (s.received recv) (s.payload recv)) := by
  have hmatch : ¬ (s.exp.flag = true ∧ recv 0 ≠ s.exp.cmdId) := fun hnot => hnot.2 (h.flag hnot.1)
  have hpre : s.preHandle recv =
      (s.payload recv, .subtract (u16 s.downSize) (overhead (recv 0))) := by
    unfold State.preHandle handleFromHost
    dsimp only
    rw [if_neg hmatch]
    rfl
  have hlinked : { s.received recv with linked := true } = s.received recv := by
    cases s
    cases h.linked
    rfl
  unfold loaderScheduler
  rw [hpre, if_neg (by simp [h.hung])]
  dsimp only
  rw [if_neg (by simp [State.record, h.linked])]
  exact congrArg (fun s => finish env (dispatch env s (s.payload recv))) hlinked

/-- A turn that answers changes no more than the command does, but for the frame. -/
theorem finish_answered {r : State σ × Packet} (hhung : r.1.hung = false) (hroom : r.1.Roomy)
    (hpk : r.2.fromHost = false) : finish env (answered r) =
      { r.1 with
        up := (handleToHost r.2 r.1.up).2
        sent := r.1.sent ++ [slice (handleToHost r.2 r.1.up).1.data 0
          (handleToHost r.2 r.1.up).1.dataSize] } := by
  unfold finish answered syncPending respond
  simp [hhung, hpk, flushFull_of_roomy hroom]

/-- Unless the loader hangs, a turn leaves room for another packet. -/
theorem finish_roomy {t : Turn σ} (h : (finish env t).hung = false) : (finish env t).Roomy := by
  unfold finish at h ⊢
  dsimp only at h ⊢
  split_ifs at h ⊢ with hhung hhung' hresp
  · exact absurd (hhung.symm.trans h) (by decide)
  · exact absurd (hhung'.symm.trans h) (by decide)
  · have hroom := @flushFull_roomy _ env (syncPending env t.s t.sync)
    unfold respond
    split_ifs
    · exact hroom
    · exact hroom
  · exact flushFull_roomy _

theorem loaderScheduler_roomy (hroom : s.Roomy) (h : (loaderScheduler env s recv).hung = false) :
    (loaderScheduler env s recv).Roomy := by
  unfold loaderScheduler at h ⊢
  dsimp only at h ⊢
  split_ifs at h ⊢
  · exact hroom
  · exact hroom
  · exact finish_roomy h

/-- A turn without an answer. -/
theorem finish_silent {pk : Packet} (hhung : s.hung = false) (hroom : s.Roomy) :
    finish env ⟨s, pk, false, none⟩ = s := by
  unfold finish syncPending
  simp [hhung, flushFull_of_roomy hroom]

theorem loader_run_cons (packets : List Mem) :
    (loader env).run s (recv :: packets) = (loader env).run (loaderScheduler env s recv) packets :=
  rfl

theorem loaderScheduler_hung (h : s.hung = true) : loaderScheduler env s recv = s := if_pos h

theorem run_hung (h : s.hung = true) (packets : List Mem) : (loader env).run s packets = s := by
  induction packets with
  | nil => rfl
  | cons recv packets ih =>
    rw [loader_run_cons, loaderScheduler_hung h, ih]

theorem run_roomy (hroom : s.Roomy) {packets : List Mem}
    (h : ((loader env).run s packets).hung = false) : ((loader env).run s packets).Roomy := by
  have hinv : ((loader env).run s packets).hung = false → ((loader env).run s packets).Roomy := by
    refine @Machine.run_invariant _ _ _ (loader env) (fun _ _ => True)
      (fun s => s.hung = false → s.Roomy) ?_ _ (fun _ => hroom) _
      (@Machine.guarded_of_forall _ _ _ (loader env) (fun _ => True) s packets fun _ _ => trivial)
    intro s recv hs _ hnext
    cases hhung : s.hung with
    | false => exact loaderScheduler_roomy (hs hhung) hnext
    | true =>
      have hsame : ((loader env).step s recv).2 = s := loaderScheduler_hung hhung
      rw [hsame] at hnext
      exact absurd (hhung.symm.trans hnext) (by decide)
  exact hinv h

end Turn

end UBoot.Loader
