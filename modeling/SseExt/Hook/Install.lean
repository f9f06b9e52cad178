import SseExt.Hook.Redirect

/-!
# `ITaskPool::Install`

A plugin hooks the end of the main loop's update. The code it puts there calls its hook and goes on
with what the site ran before: the instructions of the game that the branch displaces, which are
copied, or what an earlier branch led to.

**Theorem (`install_runs`).** After any number of plugins have installed their hooks, control that
comes to the site calls the hooks, the last one first, then executes the displaced instructions
once, and goes on behind them; and `ValidateMemory` accepts the site.
-/

namespace SseExt.Hook

/-! ## `ITaskPool::Install` -/

/-- What a plugin installs: the budget it has set, and its two hooks. -/
structure Plugin where
  budget : Int64
  mainLoopUpdateHook : UInt64
  mainLoopUpdateHookBudget : UInt64

/-- The hook that is called. -/
def Plugin.hook (p : Plugin) : UInt64 :=
  if p.budget > 0 then p.mainLoopUpdateHookBudget else p.mainLoopUpdateHook

/-- The branch written at the site, for the anniversary edition or not. -/
def branch (ae : Bool) : Branch := if ae then .jmp6 else .jmp5

/-- How many bytes of the site are displaced. -/
def displacedSize (ae : Bool) : ℕ := if ae then 8 else 5

/-- The bytes of the game at the site. -/
def original (ae : Bool) : List UInt8 :=
  if ae then [0x4C, 0x8D, 0x9C, 0x24, 0x30, 0x01, 0x00, 0x00] else [0x48, 0x8B, 0x5C, 0x24, 0x40]

/-- `Patching::validate_mem` -/
def validateMem (m : Memory) (addr : UInt64) (data : List UInt8) : Bool :=
  bytesAt m addr data.length == data

/-- `ITaskPool::ValidateMemory` -/
def validateMemory (ae : Bool) (m : Memory) (addr : UInt64) : Bool :=
  validateMem m addr (original ae) || validateMem m addr (if ae then [0xFF, 0x25] else [0xE9])

/-- `Assembly`: the instructions at the target are copied, unless it is what another hook has put
there. -/
def assembly (ae : Bool) (m : Memory) (target : UInt64) (chain : Bool) (hook : UInt64) :
    List UInt8 :=
  if chain then code [] target hook
  else code (bytesAt m target (displacedSize ae))
    (target + UInt64.ofNat (displacedSize ae)) hook

/-- The code that `Install` assembles for what it finds at the site. -/
def hookCode (ae : Bool) (m : Memory) (addr hook : UInt64) : List UInt8 :=
  match (branch ae).getDst m addr with
  | some jmpAddr => assembly ae m jmpAddr true hook
  | none => assembly ae m addr false hook

namespace Trampolines

variable {σ : Type*} (T : Trampolines σ) (ae : Bool) (addr : UInt64)

/-- `Install` -/
def install (s : σ) (p : Plugin) : σ :=
  let r := T.emit s (hookCode ae (T.mem s) addr p.hook)
  T.write (branch ae) r.2 addr r.1

def installAll (s : σ) (ps : List Plugin) : σ := ps.foldl (T.install ae addr) s

/-- The trampolines do their part in a run of `Install`, when `used` is in use at first. -/
inductive Serves : Set UInt64 → σ → List Plugin → Prop
  | nil (used : Set UInt64) (s : σ) : Serves used s []
  | cons {used F : Set UInt64} {s : σ} {p : Plugin} {ps : List Plugin} {bs : List UInt8}
      {r : UInt64 × σ} :
      bs = hookCode ae (T.mem s) addr p.hook → r = T.emit s bs → T.Emitted used s bs →
      T.Written (original ae) (branch ae) (used ∪ span r.1 bs.length) F r.2 addr r.1 →
      Serves (used ∪ span r.1 bs.length ∪ F) (T.install ae addr s p) ps →
      Serves used s (p :: ps)

end Trampolines

/-! ## The site -/

/-- What control does that comes to the site: the displaced instructions are there, or a branch to
what lies in memory in use, outside of the branch itself. -/
inductive Site (ae : Bool) (addr : UInt64) (used : Set UInt64) (m : Memory) :
    List Event → UInt64 → Prop
  | pristine : bytesAt m addr (original ae).length = original ae →
      span addr (original ae).length ⊆ used →
      Site ae addr used m [Event.displaced] (addr + UInt64.ofNat (original ae).length)
  | hooked {F : Set UInt64} {o stop : UInt64} {es : List Event} :
      (branch ae).getDst m addr = some o → ReadsOnly (span addr (branch ae).size ∪ F)
        ((branch ae).getDst · addr) m →
      Runs (fetch (original ae)) F m o es stop → F ⊆ used → span addr (branch ae).size ⊆ used →
      Disjoint F (span addr (branch ae).size) → Site ae addr used m es stop

variable {ae : Bool} {m : Memory} {addr ip stop : UInt64} {F used : Set UInt64} {D : List UInt8}
  {es : List Event}

/-- The bytes of the game are neither a jump nor a call. -/
theorem head_original (h : bytesAt m ip (original ae).length = original ae) :
    m ip ≠ 0xE9 ∧ m ip ≠ 0xFF := by
  cases ae with
  | false =>
    have hhead : m ip = 0x48 := head_of_bytesAt h
    rw [hhead]
    exact ⟨by decide, by decide⟩
  | true =>
    have hhead : m ip = 0x4C := head_of_bytesAt h
    rw [hhead]
    exact ⟨by decide, by decide⟩

theorem getDst_original (h : bytesAt m ip (original ae).length = original ae) :
    (branch ae).getDst m ip = none := by
  obtain ⟨h5, h6⟩ := head_original h
  cases ae with
  | false => exact if_pos h5
  | true => exact if_pos (.inl h6)

theorem fetch_original (h : bytesAt m ip (original ae).length = original ae) :
    fetch (original ae) m ip =
      some (some .displaced, ip + UInt64.ofNat (original ae).length) := by
  obtain ⟨h5, h6⟩ := head_original h
  have hjmp5 : getDst5 0xE9 m ip = none := if_pos h5
  have hff : ∀ modrm, getDst6 modrm m ip = none := fun modrm => if_pos (.inl h6)
  simp only [fetch, hjmp5, hff, h, if_true]

/-- **The displaced instructions**, wherever they have been copied to. -/
theorem runs_original (h : bytesAt m ip (original ae).length = original ae)
    (hF : span ip (original ae).length ⊆ F) :
    Runs (fetch (original ae)) F m ip [Event.displaced]
      (ip + UInt64.ofNat (original ae).length) :=
  .single (e := some Event.displaced) (fetch_original h)
    ((readsOnly_bytesAt hF).of_eq h fun _ => fetch_original)

theorem runs_branch {o : UInt64} (h : (branch ae).getDst m ip = some o)
    (hF : ReadsOnly F ((branch ae).getDst · ip) m) : Runs (fetch D) F m ip [] o := by
  cases ae with
  | false => exact runs_jmp5 h hF
  | true => exact runs_jmp6 h hF

theorem size_le (ae : Bool) : (branch ae).size ≤ (original ae).length := by
  cases ae <;> decide

theorem length_original (ae : Bool) : (original ae).length = displacedSize ae := by
  cases ae <;> rfl

namespace Site

theorem branch_used (h : Site ae addr used m es stop) : span addr (branch ae).size ⊆ used := by
  cases h with
  | pristine _ hused => exact fun x hx => hused (mem_span_of_le hx (size_le ae))
  | hooked _ _ _ _ hused _ => exact hused

/-- Control that comes to the site. -/
theorem runs (h : Site ae addr used m es stop) :
    Runs (fetch (original ae)) used m addr es stop := by
  cases h with
  | pristine hbytes hused => exact runs_original hbytes hused
  | hooked hget hreads hruns hF hused _ =>
    exact (runs_branch hget (hreads.mono (Set.union_subset hused hF))).trans (hruns.mono hF)

/-- **`ValidateMemory` accepts the site.** -/
theorem validates (h : Site ae addr used m es stop) : validateMemory ae m addr = true := by
  cases h with
  | pristine hbytes _ => simp [validateMemory, validateMem, hbytes]
  | hooked hget _ _ _ _ _ =>
    cases ae with
    | false =>
      simp only [branch, Branch.getDst, Bool.false_eq_true, if_false, getDst5] at hget
      split_ifs at hget with hop
      simp [validateMemory, validateMem, bytesAt, not_not.1 hop]
    | true =>
      simp only [branch, Branch.getDst, if_true, getDst6] at hget
      split_ifs at hget with hop
      rw [not_or, not_not, not_not] at hop
      simp [validateMemory, validateMem, bytesAt, hop.1, hop.2]

/-- The code assembled for a site calls the hook and goes on with what the site did. -/
theorem runs_hookCode (h : Site ae addr used m es stop) {m' : Memory} {c hook : UInt64}
    (hcode : bytesAt m' c (hookCode ae m addr hook).length = hookCode ae m addr hook)
    (hkeeps : AgreeOn (used \ span addr (branch ae).size) m m') :
    ∃ F, F ⊆ used ∧ Disjoint F (span addr (branch ae).size) ∧
      Runs (fetch (original ae)) (span c (hookCode ae m addr hook).length ∪ F) m' c
        (Event.call hook :: es) stop := by
  cases h with
  | pristine hbytes _ =>
    have hb : hookCode ae m addr hook =
        code (original ae) (addr + UInt64.ofNat (original ae).length) hook := by
      simp only [hookCode, getDst_original hbytes, assembly, Bool.false_eq_true, if_false]
      rw [← length_original, hbytes]
    rw [hb] at hcode
    rw [hb, length_code]
    have hlen : (original ae).length < 2 ^ 30 := by cases ae <;> decide
    have hspan : span (c + 6) (original ae).length ⊆ span c ((original ae).length + 28) := by
      intro x hx
      have h6 : x ∈ span (c + UInt64.ofNat 6) (original ae).length := hx
      exact mem_span_of_le (mem_span_add h6) (by omega)
    have hmid : bytesAt m' (c + 6) (original ae).length = original ae :=
      (bytesAt_append.1 (bytesAt_append.1 hcode).2).1
    refine ⟨∅, Set.empty_subset _, Set.empty_disjoint _, ?_⟩
    rw [Set.union_empty]
    exact runs_code hlen hcode subset_rfl (runs_original hmid hspan)
  | @hooked F o _ _ hget _ hruns hF _ hdisj =>
    have hb : hookCode ae m addr hook = code [] o hook := by
      simp only [hookCode, hget, assembly, if_true]
    rw [hb] at hcode
    rw [hb, length_code]
    have hagree : AgreeOn F m m' := hkeeps.mono fun x hx =>
      ⟨hF hx, fun hx' => Set.disjoint_left.1 hdisj hx hx'⟩
    refine ⟨F, hF, hdisj, ?_⟩
    have hzero : c + 6 + UInt64.ofNat 0 = c + 6 := by simp
    have hdone : Runs (fetch (original ae)) (span c (([] : List UInt8).length + 28) ∪ F) m'
        (c + 6) [] (c + 6 + UInt64.ofNat ([] : List UInt8).length) := by
      rw [List.length_nil, hzero]
      exact .done _
    have hcall := runs_code (by simp) hcode Set.subset_union_left hdone
    exact hcall.trans ((hruns.congr hagree).mono Set.subset_union_right)

end Site

/-! ## Runs of `Install` -/

namespace Trampolines

variable {σ : Type*} {T : Trampolines σ} {s : σ}

/-- **One more hook** is called before everything else. -/
theorem install_site {p : Plugin} {bs : List UInt8} {r : UInt64 × σ}
    (hbs : bs = hookCode ae (T.mem s) addr p.hook) (hr : r = T.emit s bs)
    (he : T.Emitted used s bs)
    (hw : T.Written (original ae) (branch ae) (used ∪ span r.1 bs.length) F r.2 addr r.1)
    (h : Site ae addr used (T.mem s) es stop) :
    Site ae addr (used ∪ span r.1 bs.length ∪ F) (T.mem (T.install ae addr s p))
      (Event.call p.hook :: es) stop := by
  subst hr
  have hpatch := h.branch_used
  have hfresh : Disjoint (span (T.emit s bs).1 bs.length) (span addr (branch ae).size) :=
    he.fresh.mono_right hpatch
  have hinstall : T.install ae addr s p =
      T.write (branch ae) (T.emit s bs).2 addr (T.emit s bs).1 := by
    rw [hbs]
    rfl
  rw [hinstall]
  -- The code is still there when the branch has been written.
  have hcode : bytesAt (T.mem (T.write (branch ae) (T.emit s bs).2 addr (T.emit s bs).1))
      (T.emit s bs).1 bs.length = bs := by
    rw [bytesAt_congr (hw.agree Set.subset_union_right hfresh)]
    exact he.code
  have hkeeps : AgreeOn (used \ span addr (branch ae).size) (T.mem s)
      (T.mem (T.write (branch ae) (T.emit s bs).2 addr (T.emit s bs).1)) := by
    intro x hx
    rw [hw.keeps x ⟨.inl hx.1, hx.2⟩, he.keeps x hx.1]
  subst hbs
  obtain ⟨G, hG, hGdisj, hruns⟩ := h.runs_hookCode hcode hkeeps
  obtain ⟨o, hget, hreads, hto⟩ := hw.branches
  have hFdisj : Disjoint F (span addr (branch ae).size) :=
    hw.fresh.mono_right (hpatch.trans Set.subset_union_left)
  refine .hooked (F := F ∪ (span (T.emit s (hookCode ae (T.mem s) addr p.hook)).1
    (hookCode ae (T.mem s) addr p.hook).length ∪ G)) hget ?_ ?_ ?_ ?_ ?_
  · exact hreads.mono (Set.union_subset_union_right _ Set.subset_union_left)
  · exact (hto.mono Set.subset_union_left).trans (hruns.mono Set.subset_union_right)
  · refine Set.union_subset Set.subset_union_right (Set.union_subset ?_ ?_)
    · exact Set.subset_union_right.trans Set.subset_union_left
    · exact hG.trans (Set.subset_union_left.trans Set.subset_union_left)
  · exact hpatch.trans (Set.subset_union_left.trans Set.subset_union_left)
  · exact Set.disjoint_union_left.2 ⟨hFdisj, Set.disjoint_union_left.2 ⟨hfresh, hGdisj⟩⟩

theorem installAll_site {ps : List Plugin} (hs : T.Serves ae addr used s ps)
    (h : Site ae addr used (T.mem s) es stop) :
    ∃ used', Site ae addr used' (T.mem (T.installAll ae addr s ps))
      ((ps.map fun p => Event.call p.hook).reverse ++ es) stop := by
  induction hs generalizing es with
  | nil used s => exact ⟨used, h⟩
  | @cons used F s p ps bs r hbs hr he hw _ ih =>
    obtain ⟨used', hsite⟩ := ih (install_site hbs hr he hw h)
    refine ⟨used', ?_⟩
    rw [List.map_cons, List.reverse_cons, List.append_assoc]
    exact hsite

/-- **Hooks stack.** Plugins install their hooks where the game's own instructions are. Control that
comes to the site afterwards calls the hooks, the last one first, executes the displaced
instructions once, and goes on behind them; and the site is still one that `ValidateMemory`
accepts. -/
theorem install_runs {ps : List Plugin} (hs : T.Serves ae addr used s ps)
    (hbytes : bytesAt (T.mem s) addr (original ae).length = original ae)
    (hused : span addr (original ae).length ⊆ used) :
    (∃ F, Runs (fetch (original ae)) F (T.mem (T.installAll ae addr s ps)) addr
      ((ps.map fun p => Event.call p.hook).reverse ++ [Event.displaced])
      (addr + UInt64.ofNat (displacedSize ae))) ∧
      validateMemory ae (T.mem (T.installAll ae addr s ps)) addr = true := by
  obtain ⟨used', hsite⟩ := installAll_site hs (.pristine hbytes hused)
  rw [← length_original]
  exact ⟨⟨used', hsite.runs⟩, hsite.validates⟩

end Trampolines

/-! ## Room for plugins -/

theorem length_hookCode_le (ae : Bool) (m : Memory) (addr hook : UInt64) :
    (hookCode ae m addr hook).length ≤ 36 := by
  have hsize : displacedSize ae ≤ 8 := by cases ae <;> decide
  unfold hookCode
  cases (branch ae).getDst m addr with
  | none =>
    simp only [assembly, Bool.false_eq_true, if_false, length_code, length_bytesAt]
    omega
  | some o =>
    simp only [assembly, if_true, length_code, List.length_nil]
    omega

theorem length_stub_le (k : Branch) (dst : UInt64) : (k.stub dst).length ≤ 14 := by
  cases k <;> simp [Branch.stub]

/-- **Fifty bytes a plugin.** Trampolines that take the next free bytes serve any number of plugins,
as long as they have room and are near the site. -/
theorem bump_serves {m : Memory} {free : UInt64} {ps : List Plugin}
    (hroom : Room used free (ps.length * 50)) (hpatch : span addr (branch ae).size ⊆ used)
    (hlo : addr.toNat + 6 ≤ free.toNat) (hhi : free.toNat + ps.length * 50 < addr.toNat + 2 ^ 31) :
    bump.Serves ae addr used (m, free) ps := by
  induction ps generalizing used m free with
  | nil => exact .nil _ _
  | cons p ps ih =>
    have hlen := length_hookCode_le ae m addr p.hook
    have hstub := length_stub_le (branch ae) free
    have hsize : (branch ae).size ≤ 6 := by cases ae <;> decide
    generalize hbs : hookCode ae m addr p.hook = bs at hlen
    rw [List.length_cons, Nat.add_mul] at hroom hhi
    have hfits := hroom.fits
    have hnext : (free + UInt64.ofNat bs.length).toNat = free.toNat + bs.length :=
      toNat_add_ofNat (by omega)
    have haddr : (addr + UInt64.ofNat (branch ae).size).toNat =
        addr.toNat + (branch ae).size := toNat_add_ofNat (by omega)
    have hroom₁ := hroom.take (l := bs.length) (by omega)
    have hpatch₁ : span addr (branch ae).size ⊆ used ∪ span free bs.length :=
      hpatch.trans Set.subset_union_left
    -- The displacement of the branch is not negative, and it fits.
    have hnear : (free + UInt64.ofNat bs.length -
        (addr + UInt64.ofNat (branch ae).size)).toNat < 2 ^ 31 := by
      have hle : addr + UInt64.ofNat (branch ae).size ≤ free + UInt64.ofNat bs.length := by
        rw [UInt64.le_iff_toNat_le, haddr, hnext]
        omega
      rw [UInt64.toNat_sub_of_le _ _ hle, haddr, hnext]
      omega
    have hroom₂ := hroom₁.take (l := ((branch ae).stub free).length) (by omega)
    have hlast : (free + UInt64.ofNat bs.length +
        UInt64.ofNat ((branch ae).stub free).length).toNat =
          free.toNat + bs.length + ((branch ae).stub free).length := by
      rw [toNat_add_ofNat (by omega), hnext]
    refine @Trampolines.Serves.cons _ bump ae addr used
      (span (free + UInt64.ofNat bs.length) ((branch ae).stub free).length) (m, free) p ps bs
      (bump.emit (m, free) bs) hbs.symm rfl (hroom.emitted (by omega))
      (hroom₁.written (by omega) hpatch₁ hnear) ?_
    have hinstall : bump.install ae addr (m, free) p =
        bump.write (branch ae) (bump.emit (m, free) bs).2 addr free := by
      rw [← hbs]
      rfl
    rw [hinstall]
    refine ih (hroom₂.mono (by omega)) (hpatch₁.trans Set.subset_union_left) ?_ ?_
    · change addr.toNat + 6 ≤ (free + UInt64.ofNat bs.length +
        UInt64.ofNat ((branch ae).stub free).length).toNat
      omega
    · change (free + UInt64.ofNat bs.length +
        UInt64.ofNat ((branch ae).stub free).length).toNat + ps.length * 50 < addr.toNat + 2 ^ 31
      omega

/-- Three plugins, one of them with a budget, hook the update of the main loop at `0x1000`. -/
def threePlugins : List Plugin := [⟨0, 0x3000, 0x3100⟩, ⟨500, 0x4000, 0x4100⟩, ⟨0, 0x5000, 0x5100⟩]

theorem install_runs_sample :
    (∃ F, Runs (fetch (original false)) F (bump.installAll false 0x1000
        (process 0x1000 0x10000 (original false)) threePlugins).1 0x1000
      [.call 0x5000, .call 0x4100, .call 0x3000, .displaced] 0x1005) ∧
    validateMemory false (bump.installAll false 0x1000
      (process 0x1000 0x10000 (original false)) threePlugins).1 0x1000 = true := by
  have hpatch : span 0x1000 5 ⊆ {x : UInt64 | x.toNat < (0x10000 : UInt64).toNat} := by
    intro x hx
    exact Nat.lt_trans (of_mem_span (by decide) hx).2 (by decide)
  have hserves : bump.Serves false 0x1000 {x | x.toNat < (0x10000 : UInt64).toNat}
      (process 0x1000 0x10000 (original false)) threePlugins :=
    bump_serves (room_process (by decide)) hpatch (by decide) (by decide)
  exact Trampolines.install_runs hserves (bytesAt_writeBytes (by decide)) hpatch

end SseExt.Hook
