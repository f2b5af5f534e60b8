import Mathlib.Data.List.Nodup
import Lore.State.Save

/-!
# SaveRegistered — a dirty block is registered, and once

Whatever the interleaving, a dirty block is registered or has a writer about to claim its
registration, a registered block is on the list or has the one writer that claimed it about
to push it, and while a block is on the list the State is dirty, or the save or a writer is
about to mark it so.
-/

namespace Lore.State

open Lore.Lib Function

variable {τ ε : Type}

/-- The registered blocks, those a filter has dropped apart. -/
def World.registrations (w : World τ ε) : List BlockId :=
  match w.save with
  | .filtering kept rest => kept ++ rest
  | _ => w.blockDirty

/-- The save marks the State dirty before it ends. -/
def World.armed (w : World τ ε) : Bool :=
  match w.save with
  | .cleared _ _ | .releasing _ | .filtering _ _ => true
  | .settling registered => registered
  | _ => false

structure Registered (w : World τ ε) : Prop where
  nodup : w.registrations.Nodup
  registered : ∀ id, (w.blocks id).registered = true ↔
    id ∈ w.registrations ∨ ∃ writer, w.writers writer = .push id
  pushing : ∀ writer id, w.writers writer = .push id →
    id ∉ w.registrations ∧ ∀ other, w.writers other = .push id → other = writer
  dirty : ∀ id, (w.blocks id).dirty = true →
    (w.blocks id).registered = true ∨ ∃ writer, w.writers writer = .claim id
  state : ∀ id ∈ w.registrations, w.stateDirty = true ∨ w.armed = true ∨
    ∃ writer, w.writers writer = .mark id
  bounded : ∀ id, (w.blocks id).registered = true ∨ (∃ writer, w.writers writer = .claim id) →
    id.index < w.tree.blockCount

namespace Registered

variable {w w' : World τ ε}

theorem frame (h : Registered w) (hw : w'.writers = w.writers)
    (hre : ∀ id, (w'.blocks id).registered = (w.blocks id).registered)
    (hd : ∀ id, (w'.blocks id).dirty = true →
      (w.blocks id).dirty = true ∨ (w.blocks id).registered = true)
    (hr : w'.registrations = w.registrations)
    (hst : ∀ id ∈ w.registrations, w.stateDirty = true ∨ w.armed = true →
      w'.stateDirty = true ∨ w'.armed = true)
    (hc : w.tree.blockCount ≤ w'.tree.blockCount) : Registered w' where
  nodup := hr ▸ h.nodup
  registered id := by
    rw [hre, hr, hw]
    exact h.registered id
  pushing writer id := by
    rw [hr, hw]
    exact h.pushing writer id
  dirty id hid := by
    rw [hre, hw]
    exact (hd id hid).elim (h.dirty id) .inl
  state id hid := by
    rw [hr] at hid
    rw [hw]
    exact or_assoc.mp ((or_assoc.mpr (h.state id hid)).imp_left (hst id hid))
  bounded id hid := by
    rw [hre, hw] at hid
    exact Nat.lt_of_lt_of_le (h.bounded id hid) hc

theorem fresh (h : Registered w) (id : BlockId) (hid : ¬ id.index < w.tree.blockCount) :
    (w.blocks id).dirty = false ∧ (w.blocks id).registered = false := by
  rw [← Bool.not_eq_true, ← Bool.not_eq_true]
  exact ⟨fun hd => hid (h.bounded id (h.dirty id hd)), fun hr => hid (h.bounded id (.inl hr))⟩

variable [DecidableEq τ]

/-- One writer moves on in its registration of a block: what holds of the other blocks holds
still, and the block itself is looked at. -/
theorem of_move (h : Registered w) {writer id r r'} (hwr : w.writers writer = r)
    (hw : w'.writers = update w.writers writer r') (hr : r.block?.getD id = id)
    (hr' : r'.block?.getD id = id) (hot : ∀ other, other ≠ id → w'.blocks other = w.blocks other)
    (hl : ∀ other, other ≠ id → (other ∈ w'.registrations ↔ other ∈ w.registrations))
    (hst : w.stateDirty = true ∨ w.armed = true → w'.stateDirty = true ∨ w'.armed = true)
    (hco : w.tree.blockCount ≤ w'.tree.blockCount)
    (hb : (w'.blocks id).registered = true ∨ (∃ claimer, w'.writers claimer = .claim id) →
      id.index < w'.tree.blockCount) (hn : w'.registrations.Nodup)
    (hre : (w'.blocks id).registered = true ↔
      id ∈ w'.registrations ∨ ∃ pusher, w'.writers pusher = .push id)
    (hpu : ∀ pusher, w'.writers pusher = .push id →
      id ∉ w'.registrations ∧ ∀ other, w'.writers other = .push id → other = pusher)
    (hd : (w'.blocks id).dirty = true →
      (w'.blocks id).registered = true ∨ ∃ claimer, w'.writers claimer = .claim id)
    (hma : id ∈ w'.registrations → w'.stateDirty = true ∨ w'.armed = true ∨
      ∃ marker, w'.writers marker = .mark id) : Registered w' := by
  have hsa : ∀ {q : Registration} {other : BlockId}, q.block? = some other → other ≠ id →
      ∀ candidate, w'.writers candidate = q ↔ w.writers candidate = q := by
    intro q other hq hne candidate
    by_cases heq : candidate = writer
    · rw [heq, hw, update_self, hwr]
      exact ⟨fun hca => absurd (by simpa [hca, hq] using hr') hne,
        fun hca => absurd (by simpa [hca, hq] using hr) hne⟩
    · rw [hw, update_of_ne heq]
  refine ⟨hn, fun other => ?_, fun pusher other hp => ?_, fun other ho => ?_,
    fun other ho => ?_, fun other ho => ?_⟩ <;> by_cases hne : other = id
  · exact hne ▸ hre
  · rw [hot other hne, h.registered, hl other hne]
    exact or_congr .rfl (exists_congr fun pusher => (hsa rfl hne pusher).symm)
  · exact hne ▸ hpu pusher (hne ▸ hp)
  · obtain ⟨hmem, hu⟩ := h.pushing pusher other ((hsa rfl hne pusher).mp hp)
    exact ⟨fun hli => hmem ((hl other hne).mp hli),
      fun another ha => hu another ((hsa rfl hne another).mp ha)⟩
  · exact hne ▸ hd (hne ▸ ho)
  · rw [hot other hne] at ho ⊢
    exact (h.dirty other ho).imp_right fun ⟨claimer, hc⟩ =>
      ⟨claimer, (hsa rfl hne claimer).mpr hc⟩
  · exact hne ▸ hma (hne ▸ ho)
  · rcases or_assoc.mpr (h.state other ((hl other hne).mp ho)) with hs | ⟨marker, hm⟩
    · exact or_assoc.mp (.inl (hst hs))
    · exact .inr (.inr ⟨marker, (hsa rfl hne marker).mpr hm⟩)
  · exact hne ▸ hb (hne ▸ ho)
  · rw [hot other hne] at ho
    exact Nat.lt_of_lt_of_le (h.bounded other (ho.imp_right fun ⟨claimer, hc⟩ =>
      ⟨claimer, (hsa rfl hne claimer).mp hc⟩)) hco

theorem writers_of_move {writer r r'} (hw : w'.writers = update w.writers writer r')
    (hwr : w.writers writer = r) {q} (hr : q ≠ r) (hr' : q ≠ r') (other : Option τ) :
    w'.writers other = q ↔ w.writers other = q := by
  by_cases hne : other = writer
  · subst hne
    rw [hw, update_self, hwr]
    exact ⟨fun heq => absurd heq.symm hr', fun heq => absurd heq.symm hr⟩
  · rw [hw, update_of_ne hne]

section

variable (h : Registered w)
include h

/-- A step of a registration that neither takes nor pushes it leaves the pushes alone. -/
theorem pushes_of_move (w' : World τ ε) (id : BlockId) {writer r r'}
    (hwr : w.writers writer = r) (hw : w'.writers = update w.writers writer r')
    (hr : .push id ≠ r) (hr' : .push id ≠ r') (hl : w'.registrations = w.registrations) :
    ((w.blocks id).registered = true ↔
      id ∈ w'.registrations ∨ ∃ pusher, w'.writers pusher = .push id) ∧
    ∀ pusher, w'.writers pusher = .push id →
      id ∉ w'.registrations ∧ ∀ other, w'.writers other = .push id → other = pusher := by
  have hsa := writers_of_move hw hwr hr hr'
  rw [hl]
  refine ⟨(h.registered id).trans (or_congr .rfl (exists_congr fun pusher => (hsa pusher).symm)),
    fun pusher hp => ?_⟩
  obtain ⟨hmem, hu⟩ := h.pushing pusher id ((hsa pusher).mp hp)
  exact ⟨hmem, fun other ho => hu other ((hsa other).mp ho)⟩

/-- A block is written by a writer that has nothing left to register: where it turned dirty
the writer claims it next. -/
theorem touch {writer} (hwr : w.writers writer = .done) (id : BlockId) (block : Block ε)
    (hbl : block.registered = (w.blocks id).registered) (hb : w'.blocks = update w.blocks id block)
    (hw : w'.writers =
      update w.writers writer (if (w.blocks id).dirty then .done else .claim id))
    (hr : w'.registrations = w.registrations) (hsD : w'.stateDirty = w.stateDirty)
    (harmed : w'.armed = w.armed) (hco : w.tree.blockCount ≤ w'.tree.blockCount)
    (hi : id.index < w'.tree.blockCount) : Registered w' := by
  have hse : w'.blocks id = block := by rw [hb, update_self]
  obtain ⟨hre, hp⟩ := h.pushes_of_move w' id hwr hw nofun (by split <;> nofun) hr
  refine h.of_move hwr hw rfl (by split <;> rfl) (fun other hne => by rw [hb, update_of_ne hne])
    (fun _ _ => by rw [hr]) (by rw [hsD, harmed]; exact fun hs => hs) hco
    (fun _ => hi) (hr ▸ h.nodup) (by rwa [hse, hbl]) hp ?_ ?_
  · rw [hse, hbl, hw]
    intro _
    by_cases hwas : (w.blocks id).dirty = true
    · refine (h.dirty id hwas).imp_right fun ⟨claimer, hc⟩ => ⟨claimer, ?_⟩
      have hne : claimer ≠ writer := by
        rintro rfl
        rw [hwr] at hc
        cases hc
      rw [update_of_ne hne, hc]
    · exact .inr ⟨writer, by rw [update_self, if_neg hwas]⟩
  · rw [hr, hsD, harmed, hw]
    refine fun hmem => (h.state id hmem).imp_right (.imp_right fun ⟨marker, hm⟩ => ⟨marker, ?_⟩)
    have hne : marker ≠ writer := by
      rintro rfl
      rw [hwr] at hm
      cases hm
    rw [update_of_ne hne, hm]

theorem claim_held {writer id} (hw : w.writers writer = .claim id)
    (hh : (w.blocks id).registered = true) : Registered (w.setWriter writer (.mark id)) := by
  obtain ⟨hr, hp⟩ := h.pushes_of_move (w.setWriter writer (.mark id)) id hw rfl nofun nofun rfl
  exact h.of_move hw rfl rfl rfl (fun _ _ => rfl) (fun _ _ => .rfl) (fun hs => hs)
    (Nat.le_refl _) (fun _ => h.bounded id (.inl hh)) h.nodup hr hp
    (fun _ => .inl hh) fun _ => .inr (.inr ⟨writer, update_self ..⟩)

theorem claim_new {writer id} (hw : w.writers writer = .claim id)
    (hf : (w.blocks id).registered = false) :
    Registered ((w.setBlock id { w.blocks id with registered := true }).setWriter writer
      (.push id)) := by
  have hn := mt (h.registered id).mpr (by simp [hf])
  have hon : ∀ pusher, update w.writers writer (.push id) pusher = .push id →
      pusher = writer := by
    intro pusher hp
    by_contra hne
    rw [update_of_ne hne] at hp
    exact hn (.inr ⟨pusher, hp⟩)
  have hset : (update w.blocks id { w.blocks id with registered := true } id).registered
      = true := by rw [update_self]
  refine h.of_move hw rfl rfl rfl (fun _ hne => update_of_ne hne ..) (fun _ _ => .rfl) (fun hs => hs) (Nat.le_refl _)
    (fun _ => h.bounded id (.inr ⟨writer, hw⟩)) h.nodup
    ⟨fun _ => .inr ⟨writer, update_self ..⟩, fun _ => hset⟩ ?_ (fun _ => .inl hset)
    fun hmem => absurd (.inl hmem) hn
  intro pusher hp
  refine ⟨fun hmem => hn (.inl hmem), fun other ho => ?_⟩
  rw [hon other ho, hon pusher hp]

theorem push {writer id} (hw : w.writers writer = .push id) (hf : w.runtimeFree = true) :
    Registered ({ w with blockDirty := w.blockDirty ++ [id] }.setWriter writer (.mark id)) := by
  have hr : ({ w with blockDirty := w.blockDirty ++ [id] }.setWriter writer
      (.mark id) : World τ ε).registrations = w.registrations ++ [id] := by
    unfold World.runtimeFree at hf
    unfold World.registrations World.setWriter
    cases hsa : w.save <;> simp_all
  obtain ⟨hnew, hu⟩ := h.pushing writer id hw
  have hh := (h.registered id).mpr (.inr ⟨writer, hw⟩)
  refine h.of_move hw rfl rfl rfl (fun _ _ => rfl) (fun other hne => ?_) (fun hs => hs)
    (Nat.le_refl _) (fun _ => h.bounded id (.inl hh)) ?_ ⟨fun _ => .inl ?_, fun _ => hh⟩
    (fun pusher hp => ?_) (fun _ => .inl hh)
    fun _ => .inr (.inr ⟨writer, update_self ..⟩)
  · rw [hr]
    simp [hne]
  · rw [hr]
    exact h.nodup.append (List.nodup_singleton id) (List.disjoint_singleton.mpr hnew)
  · rw [hr]
    simp
  · -- the one writer that was to push the block did
    have hp : update w.writers writer (.mark id) pusher = .push id := hp
    by_cases hne : pusher = writer
    · rw [hne, update_self] at hp
      cases hp
    · rw [update_of_ne hne] at hp
      exact absurd (hu pusher hp) hne

theorem mark {writer id} (hw : w.writers writer = .mark id) :
    Registered ({ w with stateDirty := true }.setWriter writer .done) := by
  obtain ⟨hr, hp⟩ := h.pushes_of_move
    ({ w with stateDirty := true }.setWriter writer .done) id hw rfl nofun
    (nofun : Registration.push id ≠ .done) rfl
  have hcl : ∀ claimer, update w.writers writer .done claimer = .claim id ↔
      w.writers claimer = .claim id :=
    @writers_of_move τ ε w ({ w with stateDirty := true }.setWriter writer .done) _ _ _ .done rfl
      hw (.claim id) nofun nofun
  refine h.of_move hw rfl rfl rfl (fun _ _ => rfl) (fun _ _ => .rfl) (fun _ => .inl rfl) (Nat.le_refl _) (fun hh => ?_) h.nodup hr
    hp (fun hd => ?_) fun _ => .inl rfl
  · exact h.bounded id (hh.imp_right fun ⟨claimer, hc⟩ =>
      ⟨claimer, (hcl claimer).mp hc⟩)
  · exact (h.dirty id hd).imp_right fun ⟨claimer, hc⟩ =>
      ⟨claimer, (hcl claimer).mpr hc⟩

end

end Registered

end Lore.State
