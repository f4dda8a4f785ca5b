import UBoot.Disk.RoundTrip

/-!
# Where `gpt_fill_pte` puts the partitions

The running end of the partitions is a `u32` and exclusive, the last usable block is
inclusive, and the two are compared with `>=`. So the last two usable blocks are refused to a
partition with a size of its own. An end that wraps passes the comparison, and so does a
partition without blocks, whose entry ends before it starts.
-/
namespace UBoot.Disk
open ByteStore

/-- The first and the last block of the first `n` entries. -/
def filledPlaces (pte : Mem) (n : ℕ) : List (ℕ × ℕ) :=
  (List.range n).map fun i =>
    (Entry.startingLba.get (element pte i), Entry.endingLba.get (element pte i))

/-- The entries are in order, apart and inside the usable blocks, each of at least one block,
and no sum of a start and a size needs more than 32 bits. -/
structure PlacesSound (firstUsable lastUsable : ℕ) (partitions : List DiskPartition)
    (places : List (ℕ × ℕ)) : Prop where
  nonempty : ∀ q ∈ places, q.1 ≤ q.2
  ordered : places.Pairwise fun q r => q.2 < r.1
  inside : ∀ q ∈ places, firstUsable ≤ q.1 ∧ q.2 ≤ lastUsable
  noWrap : ∀ (i : ℕ) (p : DiskPartition) (q : ℕ × ℕ), partitions[i]? = some p →
    places[i]? = some q → q.1 + p.size < 2 ^ 32

/-- What `gpt_fill_pte` leaves behind when it returns 0. -/
def FillsSoundly (head pte : Mem) (partitions : List DiskPartition) : Prop :=
  ∀ pte', gptFillPte head pte partitions = some pte' →
    PlacesSound (Header.firstUsableLba.get head) (Header.lastUsableLba.get head) partitions
      (filledPlaces pte' partitions.length)

/-- The layout is in order, without overlap, and inside the usable blocks. -/
structure FitsDisk (firstUsable lastUsable : ℕ) (places : List (ℕ × ℕ)) : Prop where
  ordered : places.Pairwise fun q r => q.1 + q.2 ≤ r.1
  inside : ∀ q ∈ places, firstUsable ≤ q.1 ∧ q.1 + q.2 ≤ lastUsable + 1

/-- `gpt_fill_pte` takes the list and puts each partition where it is laid out. -/
def FillsExactly (head pte : Mem) (partitions : List DiskPartition) (places : List (ℕ × ℕ)) :
    Prop :=
  ∃ pte', gptFillPte head pte partitions = some pte' ∧
    filledPlaces pte' partitions.length = places.map fun q => (q.1, q.1 + q.2 - 1)

/-- Where a partition starts that follows block `follow`. -/
def DiskPartition.startAt (p : DiskPartition) (follow : ℕ) : ℕ :=
  if p.start ≠ 0 then p.start else follow

/-- Each start and its size sum to less than `bound`. -/
def EndsBelow (bound : ℕ) : ℕ → List DiskPartition → Prop
  | _, [] => True
  | follow, p :: ps => p.startAt follow + p.size < bound ∧
      EndsBelow bound (p.startAt follow + p.size) ps

/-- The checks of `gpt_fill_pte`, the first two of them on ends of 32 bits. -/
def PassesChecks (lastUsable : ℕ) : ℕ → List DiskPartition → Prop
  | _, [] => True
  | offset, p :: ps => (p.start = 0 ∨ offset ≤ p.start) ∧
      u32 (p.startAt offset + p.size) < lastUsable ∧ (stringUuid p.uuid).isSome = true ∧
      PassesChecks lastUsable (u32 (p.startAt offset + p.size)) ps

/-- Only the last partition may be without blocks. -/
def OnlyLastEmpty (partitions : List DiskPartition) : Prop :=
  ∀ p ∈ partitions.dropLast, p.size ≠ 0

instance decidableEndsBelow (bound : ℕ) : ∀ follow ps, Decidable (EndsBelow bound follow ps)
  | _, [] => inferInstanceAs (Decidable True)
  | follow, p :: ps =>
    have := decidableEndsBelow bound (p.startAt follow + p.size) ps
    inferInstanceAs (Decidable (_ ∧ _))

instance decidablePassesChecks (lastUsable : ℕ) :
    ∀ offset ps, Decidable (PassesChecks lastUsable offset ps)
  | _, [] => inferInstanceAs (Decidable True)
  | offset, p :: ps =>
    have := decidablePassesChecks lastUsable (u32 (p.startAt offset + p.size)) ps
    inferInstanceAs (Decidable (_ ∧ _ ∧ _ ∧ _))

instance (ps : List DiskPartition) : Decidable (OnlyLastEmpty ps) :=
  inferInstanceAs (Decidable (∀ p ∈ ps.dropLast, p.size ≠ 0))

section Loop
variable {lastUsable offset follow : ℕ} {ps : List DiskPartition} {pte pte' : Mem}

theorem codeLayout_cons (lastUsable offset : ℕ) (p : DiskPartition) (ps : List DiskPartition) :
    codeLayout lastUsable offset (p :: ps) =
      (p.startAt offset, if ps = [] ∧ p.size = 0 then lastUsable
        else u32 (u32 (p.startAt offset + p.size) + 2 ^ 32 - 1)) ::
      codeLayout lastUsable (u32 (p.startAt offset + p.size)) ps := rfl

theorem layout_cons (lastUsable follow : ℕ) (p : DiskPartition) (ps : List DiskPartition) :
    layout lastUsable follow (p :: ps) =
      (p.startAt follow, if ps = [] ∧ p.size = 0 then lastUsable + 1 - p.startAt follow
        else p.size) :: layout lastUsable (p.startAt follow + p.size) ps := rfl

/-- The checks are all that can fail. -/
theorem fillLoop_isSome_iff (i : ℕ) :
    (fillLoop lastUsable offset i ps pte).isSome = true ↔ PassesChecks lastUsable offset ps := by
  induction ps generalizing offset i pte with
  | nil => simp [fillLoop, PassesChecks]
  | cons p ps ih =>
    rw [fillLoop, PassesChecks]
    dsimp only
    by_cases hoverlap : p.start ≠ 0 ∧ p.start < offset
    · rw [if_pos hoverlap]
      refine iff_of_false (by simp) fun h => ?_
      have := h.1
      omega
    have hstart : p.start = 0 ∨ offset ≤ p.start := by omega
    rw [if_neg hoverlap, ← DiskPartition.startAt]
    by_cases hend : u32 (p.startAt offset + p.size) ≥ lastUsable
    · rw [if_pos hend]
      exact iff_of_false (by simp) fun h => absurd h.2.1 (by omega)
    rw [if_neg hend]
    cases huuid : stringUuid p.uuid with
    | none => simp
    | some guid =>
      dsimp only
      rw [ih]
      exact ⟨fun h => ⟨hstart, not_le.mp hend, rfl, h⟩, fun h => h.2.2.2⟩

/-- The entries hold the places of the loop. -/
theorem filledPlaces_eq (hlast : lastUsable < 2 ^ 32) (hoffset : offset < 2 ^ 32)
    (h : fillLoop lastUsable offset 0 ps pte = some pte') :
    filledPlaces pte' ps.length = codeLayout lastUsable offset ps := by
  refine List.ext_getElem (by simp [filledPlaces]) fun i hi hi' => ?_
  rw [length_codeLayout] at hi'
  obtain ⟨q, hq, e, guid, -, hentry⟩ :=
    fillLoop_entries h (List.getElem?_eq_getElem hi')
  obtain ⟨hlen, heq⟩ := List.getElem?_eq_some_iff.mp hq
  obtain ⟨hstart, hending⟩ := codeLayout_lt hlast hoffset (heq ▸ List.getElem_mem hlen)
  rw [Nat.zero_add] at hentry
  have hstarting : Entry.startingLba.get (element pte' i) = q.1 := by
    rw [Field.get_congr _ fun k _ hk => hentry k (hk.trans_le (by decide)), fillEntry_starting]
    exact Nat.mod_eq_of_lt (hstart.trans (by decide))
  have hends : Entry.endingLba.get (element pte' i) = q.2 := by
    rw [Field.get_congr _ fun k _ hk => hentry k (hk.trans_le (by decide)), fillEntry_ending]
    exact Nat.mod_eq_of_lt (hending.trans (by decide))
  simp [filledPlaces, hstarting, hends, heq]

theorem startAt_pos (p : DiskPartition) (h : 0 < offset) : 0 < p.startAt offset := by
  unfold DiskPartition.startAt
  split <;> omega

theorem le_startAt {p : DiskPartition} (h : p.start = 0 ∨ offset ≤ p.start) :
    offset ≤ p.startAt offset := by
  unfold DiskPartition.startAt
  split <;> omega

theorem OnlyLastEmpty.tail {p : DiskPartition} (h : OnlyLastEmpty (p :: ps)) :
    OnlyLastEmpty ps := by
  cases ps with
  | nil => simp [OnlyLastEmpty]
  | cons p' ps => exact fun r hr => h r (List.mem_cons_of_mem _ hr)

theorem OnlyLastEmpty.size_ne {p : DiskPartition} (h : OnlyLastEmpty (p :: ps)) (hne : ps ≠ []) :
    p.size ≠ 0 := by
  obtain ⟨p', ps, rfl⟩ := List.exists_cons_of_ne_nil hne
  exact h p List.mem_cons_self

/-- Ends that do not wrap are the running end, one behind the last block. -/
theorem codeLayout_sound (hchecks : PassesChecks lastUsable offset ps)
    (hends : EndsBelow (2 ^ 32) offset ps) (hempty : OnlyLastEmpty ps) :
    (∀ q ∈ codeLayout lastUsable offset ps, offset ≤ q.1 ∧ q.1 ≤ q.2 ∧ q.2 ≤ lastUsable) ∧
      (codeLayout lastUsable offset ps).Pairwise fun q r => q.2 < r.1 := by
  induction ps generalizing offset with
  | nil => simp [codeLayout]
  | cons p ps ih =>
    obtain ⟨hstart, hend, -, hrest⟩ := hchecks
    obtain ⟨hfit, hends⟩ := hends
    have hle := le_startAt hstart
    rw [codeLayout_cons]
    rw [u32_of_lt hfit] at hend hrest ⊢
    obtain ⟨hinside, hordered⟩ := ih hrest hends hempty.tail
    by_cases hlast : ps = [] ∧ p.size = 0
    · obtain ⟨rfl, hsize⟩ := hlast
      simp [codeLayout, hsize]
      omega
    · rw [if_neg hlast]
      have hsize : p.size ≠ 0 := fun h0 =>
        hlast ⟨by_contra fun hne => hempty.size_ne hne h0, h0⟩
      have hending : u32 (p.startAt offset + p.size + 2 ^ 32 - 1) =
          p.startAt offset + p.size - 1 := by
        unfold u32
        omega
      rw [hending]
      constructor
      · intro q hq
        rcases List.mem_cons.mp hq with rfl | hq
        · dsimp only
          omega
        · have := hinside q hq
          omega
      · refine List.pairwise_cons.mpr ⟨fun r hr => ?_, hordered⟩
        have := (hinside r hr).1
        dsimp only
        omega

theorem codeLayout_noWrap (hends : EndsBelow (2 ^ 32) offset ps) (i : ℕ) (p : DiskPartition)
    (q : ℕ × ℕ) (hp : ps[i]? = some p) (hq : (codeLayout lastUsable offset ps)[i]? = some q) :
    q.1 + p.size < 2 ^ 32 := by
  induction ps generalizing offset i with
  | nil => simp at hp
  | cons p' ps ih =>
    obtain ⟨hfit, hends⟩ := hends
    rw [codeLayout_cons, u32_of_lt hfit] at hq
    cases i with
    | zero =>
      obtain rfl : p' = p := by simpa using hp
      obtain rfl := Option.some.inj hq
      exact hfit
    | succ i => exact ih hends i hp hq

theorem endsBelow_of_sound (hoffset : 0 < offset)
    (hnonempty : ∀ q ∈ codeLayout lastUsable offset ps, q.1 ≤ q.2)
    (hwrap : ∀ (i : ℕ) (p : DiskPartition) (q : ℕ × ℕ), ps[i]? = some p →
      (codeLayout lastUsable offset ps)[i]? = some q → q.1 + p.size < 2 ^ 32) :
    EndsBelow (2 ^ 32) offset ps ∧ OnlyLastEmpty ps := by
  induction ps generalizing offset with
  | nil => simp [EndsBelow, OnlyLastEmpty]
  | cons p ps ih =>
    have hpos := startAt_pos p hoffset
    rw [codeLayout_cons] at hnonempty hwrap
    have hfit : p.startAt offset + p.size < 2 ^ 32 := hwrap 0 p _ rfl rfl
    rw [u32_of_lt hfit] at hnonempty hwrap
    obtain ⟨hends, hempty⟩ := ih (by omega)
      (fun q hq => hnonempty q (List.mem_cons_of_mem _ hq))
      (fun i p' q hp hq => hwrap (i + 1) p' q hp hq)
    refine ⟨⟨hfit, hends⟩, ?_⟩
    cases ps with
    | nil => simp [OnlyLastEmpty]
    | cons p' ps =>
      intro r hr
      rcases List.mem_cons.mp hr with rfl | hr
      · intro hsize
        have hhead := hnonempty _ List.mem_cons_self
        rw [if_neg (by simp), hsize] at hhead
        unfold u32 at hhead
        dsimp only at hhead
        omega
      · exact hempty r hr

/-- Places below the last usable block are where they are laid out. -/
theorem codeLayout_exact (hlast : lastUsable < 2 ^ 32) (hfollow : 0 < follow)
    (hends : EndsBelow lastUsable follow ps) :
    codeLayout lastUsable follow ps =
      (layout lastUsable follow ps).map fun q => (q.1, q.1 + q.2 - 1) := by
  induction ps generalizing follow with
  | nil => rfl
  | cons p ps ih =>
    obtain ⟨hend, hends⟩ := hends
    have hpos := startAt_pos p hfollow
    have hnext : u32 (p.startAt follow + p.size) = p.startAt follow + p.size :=
      u32_of_lt (by omega)
    rw [codeLayout_cons, layout_cons, List.map_cons, hnext, ih (by omega) hends]
    congr 2
    split
    · omega
    · unfold u32
      omega

theorem passesChecks_of_fits (hlast : lastUsable < 2 ^ 32)
    (hfollow : ∀ q ∈ layout lastUsable follow ps, follow ≤ q.1)
    (hordered : (layout lastUsable follow ps).Pairwise fun q r => q.1 + q.2 ≤ r.1)
    (huuid : ∀ p ∈ ps, (stringUuid p.uuid).isSome = true)
    (hends : EndsBelow lastUsable follow ps) : PassesChecks lastUsable follow ps := by
  induction ps generalizing follow with
  | nil => trivial
  | cons p ps ih =>
    obtain ⟨hend, hends⟩ := hends
    rw [layout_cons] at hfollow hordered
    obtain ⟨hhead, hordered⟩ := List.pairwise_cons.mp hordered
    have hstart : p.start = 0 ∨ follow ≤ p.start := by
      have := hfollow _ List.mem_cons_self
      unfold DiskPartition.startAt at this
      split at this <;> omega
    have hnext : u32 (p.startAt follow + p.size) = p.startAt follow + p.size :=
      u32_of_lt (by omega)
    refine ⟨hstart, by rwa [hnext], huuid p List.mem_cons_self, ?_⟩
    rw [hnext]
    refine ih (fun q hq => ?_) hordered (fun r hr => huuid r (List.mem_cons_of_mem _ hr)) hends
    have hne : ps ≠ [] := by
      rintro rfl
      simp [layout] at hq
    have := hhead q hq
    rwa [if_neg fun h => hne h.1] at this

theorem endsBelow_of_passes (hlast : lastUsable + 1 < 2 ^ 32)
    (hinside : ∀ q ∈ layout lastUsable follow ps, q.1 + q.2 ≤ lastUsable + 1)
    (hchecks : PassesChecks lastUsable follow ps) :
    EndsBelow lastUsable follow ps ∧ ∀ p ∈ ps, (stringUuid p.uuid).isSome = true := by
  induction ps generalizing follow with
  | nil => simp [EndsBelow]
  | cons p ps ih =>
    obtain ⟨-, hend, huuid, hrest⟩ := hchecks
    rw [layout_cons] at hinside
    have hfit : p.startAt follow + p.size < 2 ^ 32 := by
      have := hinside _ List.mem_cons_self
      dsimp only at this
      split at this <;> omega
    rw [u32_of_lt hfit] at hend hrest
    obtain ⟨hends, huuids⟩ := ih (fun q hq => hinside q (List.mem_cons_of_mem _ hq)) hrest
    exact ⟨⟨hend, hends⟩, List.forall_mem_cons.mpr ⟨huuid, huuids⟩⟩

end Loop

/-- The layout is sound if and only if the function refuses the list, or no end reaches block
2^32 and only the last partition is empty. -/
theorem gptFillPte_sound_iff (d : BlockDevDesc) (guid : List UInt8) (pte : Mem)
    (partitions : List DiskPartition) :
    FillsSoundly (filledHeader d guid) pte partitions ↔
      (PassesChecks (Header.lastUsableLba.get (filledHeader d guid)) 34 partitions →
        EndsBelow (2 ^ 32) 34 partitions ∧ OnlyLastEmpty partitions) := by
  have hfields := filledHeader_fields d guid
  have hlast : Header.lastUsableLba.get (filledHeader d guid) < 2 ^ 32 := by
    rw [hfields.lastUsable]
    exact u32_lt _
  have hfirst : u32 (Header.firstUsableLba.get (filledHeader d guid)) = 34 := by
    rw [hfields.firstUsable]
    rfl
  unfold FillsSoundly gptFillPte
  rw [hfirst, hfields.firstUsable]
  constructor
  · intro hsound hchecks
    obtain ⟨pte', hfill⟩ := Option.isSome_iff_exists.mp ((fillLoop_isSome_iff 0).mpr hchecks)
    have h := hsound pte' hfill
    rw [filledPlaces_eq hlast (by decide) hfill] at h
    exact endsBelow_of_sound (by decide) h.nonempty h.noWrap
  · intro hcond pte' hfill
    have hchecks := (fillLoop_isSome_iff 0).mp (Option.isSome_of_mem hfill)
    obtain ⟨hends, hempty⟩ := hcond hchecks
    obtain ⟨hinside, hordered⟩ := codeLayout_sound hchecks hends hempty
    rw [filledPlaces_eq hlast (by decide) hfill]
    exact ⟨fun q hq => (hinside q hq).2.1, hordered,
      fun q hq => ⟨(hinside q hq).1, (hinside q hq).2.2⟩, codeLayout_noWrap hends⟩

/-- An empty partition before another one. -/
def emptyFirst : List DiskPartition :=
  [partitionA 0 0, partitionA 0 256]

/-- The entry of the empty partition ends before it starts. -/
theorem empty_partition_ends_before_start : ¬ ∀ (d : BlockDevDesc) (guid : List UInt8) (pte : Mem)
    (partitions : List DiskPartition), FillsSoundly (filledHeader d guid) pte partitions := by
  intro h
  have hfields := filledHeader_fields smallDisk []
  have hlast : Header.lastUsableLba.get (filledHeader smallDisk []) = 4062 := hfields.lastUsable
  have hchecks : PassesChecks 4062 34 emptyFirst := by decide +kernel
  obtain ⟨pte', hfill⟩ : ∃ pte', fillLoop 4062 34 0 emptyFirst zeroed = some pte' :=
    Option.isSome_iff_exists.mp ((fillLoop_isSome_iff 0).mpr hchecks)
  have hgpt : gptFillPte (filledHeader smallDisk []) zeroed emptyFirst = some pte' := by
    rw [gptFillPte, hlast, hfields.firstUsable]
    exact hfill
  have hplaces := filledPlaces_eq (by decide) (by decide) hfill
  have hsound := (h smallDisk [] zeroed emptyFirst pte' hgpt).nonempty
  rw [hplaces] at hsound
  exact absurd (hsound (34, 33) (by decide)) (by decide)

/-- A list whose layout fits the disk is placed exactly there if and only if every UUID is well
formed and every partition ends before the last two usable blocks. -/
theorem gptFillPte_complete_iff {d : BlockDevDesc} {partitions : List DiskPartition}
    (hfits : FitsDisk 34 (d.lba - 34) (layout (d.lba - 34) 34 partitions)) (guid : List UInt8)
    (pte : Mem) :
    FillsExactly (filledHeader d guid) pte partitions (layout (d.lba - 34) 34 partitions) ↔
      (∀ p ∈ partitions, (stringUuid p.uuid).isSome = true) ∧
        EndsBelow (d.lba - 34) 34 partitions := by
  have hfields := filledHeader_fields d guid
  have hlba := d.lba_lt
  unfold FillsExactly gptFillPte
  rw [hfields.firstUsable, hfields.lastUsable, show u32 34 = 34 from rfl]
  rcases Nat.lt_or_ge d.lba 34 with hsmall | hlarge
  · -- no block is usable
    cases partitions with
    | nil => simp [fillLoop, filledPlaces, layout, EndsBelow]
    | cons p ps =>
      have := hfits.inside _ List.mem_cons_self
      omega
  have hlast : u32 (d.lba + 2 ^ 32 - 34) = d.lba - 34 := by
    unfold u32
    omega
  rw [hlast]
  constructor
  · rintro ⟨pte', hfill, -⟩
    have hchecks := (fillLoop_isSome_iff 0).mp (Option.isSome_of_mem hfill)
    have h := endsBelow_of_passes (by omega) (fun q hq => (hfits.inside q hq).2) hchecks
    exact ⟨h.2, h.1⟩
  · rintro ⟨huuid, hends⟩
    have hchecks := passesChecks_of_fits (by omega) (fun q hq => (hfits.inside q hq).1)
      hfits.ordered huuid hends
    obtain ⟨pte', hfill⟩ := Option.isSome_iff_exists.mp
      ((fillLoop_isSome_iff 0).mpr hchecks : (fillLoop _ _ 0 partitions pte).isSome = true)
    refine ⟨pte', hfill, ?_⟩
    rw [filledPlaces_eq (by omega) (by decide) hfill,
      codeLayout_exact (by omega) (by decide) hends]

/-- 256 blocks from block 34 on, and all that is left. -/
theorem twoPartitions_placed :
    FillsExactly (filledHeader smallDisk []) zeroed twoPartitions [(34, 256), (290, 3773)] :=
  (gptFillPte_complete_iff (d := smallDisk) ⟨by decide, by decide⟩ [] zeroed).mpr
    ⟨by decide +kernel, by decide, by decide, trivial⟩

/-- A partition of all usable blocks. -/
def wholeDisk : List DiskPartition := [partitionA 34 4029]

theorem whole_disk_is_refused : ¬ ∀ (d : BlockDevDesc) (guid : List UInt8) (pte : Mem)
    (partitions : List DiskPartition),
    FitsDisk 34 (d.lba - 34) (layout (d.lba - 34) 34 partitions) →
    FillsExactly (filledHeader d guid) pte partitions (layout (d.lba - 34) 34 partitions) := by
  intro h
  have hfields := filledHeader_fields smallDisk []
  have hlast : Header.lastUsableLba.get (filledHeader smallDisk []) = 4062 := hfields.lastUsable
  obtain ⟨pte', hfill, -⟩ := h smallDisk [] zeroed wholeDisk ⟨by decide, by decide⟩
  rw [gptFillPte, hlast, hfields.firstUsable] at hfill
  have hchecks : PassesChecks 4062 34 wholeDisk :=
    (fillLoop_isSome_iff 0).mp (Option.isSome_of_mem hfill)
  exact absurd hchecks.2.1 (by decide)

end UBoot.Disk
