/-
What a fork does with frames.

It gives both sides read-only leaves for the same frames; one that runs out of frames gives back
everything the copy took.
-/
import NixVm.Proofs.Failed
import NixVm.Proofs.Accounts

namespace NixVm

open Finset Radix GuestMemory Option

variable {pl pl' : Pool} {roots : Finset Nat} {held : Nat → Nat} {r : Nat} {s : AddrSpace}

/-! ### Forks that fail -/

section

variable (h : Good pl roots held) (hf : ForkFailed pl roots held r pl')
include h hf

lemma ForkFailed.backs : Backs roots pl pl' := by
  refine ⟨fun x hx a => byteAt_congr ?_, fun x hx a e he => ?_⟩
  · refine view_congr (hf.steady.quiet x hx a) fun e f he hptr => ?_
    exact (hf.data f (h.data_of_leaf hx he hptr)).2
  · exact ⟨e, (hf.steady.quiet x hx a).trans he, id⟩

lemma ForkFailed.translate_eq {x : Nat} (hs : Rooted roots s x) (va : Nat) :
    s.translate va pl'.phys = s.translate va pl.phys := by
  rw [NixVm.translate_eq hs.pml4, NixVm.translate_eq hs.pml4]
  rcases hs.mem with rfl | hx
  · rw [h.leaf_null, hf.good.leaf_null]
  · rw [hf.steady.quiet x hx]

lemma ForkFailed.used_iff (hr : r = 0 ∨ r ∈ roots) (f : Nat) :
    pl'.fa.refcount f ≠ 0 ↔ pl.fa.refcount f ≠ 0 := by
  rcases hf.rc f with heq | ⟨heq, hle⟩
  · rw [heq]
  refine iff_of_true (by rw [heq]; decide) fun hzero => ?_
  -- a frame without references has no leaf, so the copy cannot have counted one
  have hnone : total ptr 512 (cell pl.phys) (leafW f) 4 r = 0 := by
    rcases hr with rfl | hr
    · rw [total_succ, sum_eq_zero fun i hi => ?_]
      · rfl
      · rw [below, h.null i (mem_range.mp hi)]
        rfl
    · have hcount := refcount_eq h (f := f) (by rw [hzero]; decide)
      rw [hzero, refs_eq] at hcount
      have hsum : total ptr 512 (cell pl.phys) (leafW f) 4 r ≤ leavesOf pl.phys roots f :=
        single_le_sum (f := fun x => total ptr 512 (cell pl.phys) (leafW f) 4 x)
          (fun _ _ => Nat.zero_le _) hr
      omega
  rw [hzero, hnone] at hle
  exact absurd hle (by decide)

lemma ForkFailed.allocated_eq (hr : r = 0 ∨ r ∈ roots) : pl'.fa.allocated = pl.fa.allocated := by
  rw [h.live, hf.good.live]
  refine congrArg card (ext fun f => ?_)
  have hiff := hf.used_iff h hr f
  simp only [mem_filter, mem_range]
  constructor
  · rintro ⟨-, hlow, hused⟩
    exact ⟨h.used f (hiff.mp hused), hlow, hiff.mp hused⟩
  · rintro ⟨-, hlow, hused⟩
    exact ⟨hf.good.used f (hiff.mpr hused), hlow, hiff.mpr hused⟩

end

lemma forkCow_of_tryFork {g g' : GuestMemory} (hf : g.tryFork pl = some (none, g', pl')) :
    g' = g ∧ g.space.forkCow pl = (none, pl') := by
  unfold GuestMemory.tryFork at hf
  split at hf
  next hres =>
    cases hf
    exact ⟨rfl, hres⟩
  · dsimp only at hf
    split at hf
    · cases hf
    · split at hf <;> cases hf

/-! ### Forks that succeed -/

lemma byteAt_eq (m : PhysMem) (x y : Nat) :
    byteAt m x y = (leaf m x y).elim 0 fun e => m.byte (Pte.addr e + y % 4096) := by
  unfold byteAt view
  cases leaf m x y <;> rfl

/-- A translation with the right to write taken away. -/
def Translation.unwritable (t : Translation) : Translation := { t with prot := t.prot.readOnly }

lemma translationOf_readOnly (e : BitVec 64) (va : Nat) :
    translationOf (Pte.readOnly e) va = (translationOf e va).unwritable := by
  have huser : Pte.user (Pte.readOnly e) = Pte.user e := by
    rw [Pte.user, Pte.readOnly, BitVec.and_assoc, show ~~~Pte.RW &&& Pte.US = Pte.US by decide]
    rfl
  have hexec : Pte.noExec (Pte.readOnly e) = Pte.noExec e := by
    rw [Pte.noExec, Pte.readOnly, BitVec.and_assoc, show ~~~Pte.RW &&& Pte.NX = Pte.NX by decide]
    rfl
  simp only [translationOf, Translation.unwritable, Pte.addr_readOnly, huser, leafProt, hexec,
    Pte.writable_readOnly]
  cases Pte.writable e <;> cases Pte.noExec e <;> rfl

lemma byteAt_of_addr {m m' : PhysMem} {x z a : Nat}
    (hl : (leaf m' z a).map Pte.addr = (leaf m x a).map Pte.addr)
    (hd : ∀ e f, leaf m x a = some e → ptr e = some f → Same m m' f) :
    byteAt m' z a = byteAt m x a := by
  rw [byteAt_eq, byteAt_eq]
  cases hx : leaf m x a with
  | none =>
    rw [hx, Option.map_none, Option.map_eq_none_iff] at hl
    rw [hl]
    rfl
  | some e =>
    rw [hx, Option.map_some] at hl
    obtain ⟨e', he', haddr⟩ := Option.map_eq_some_iff.mp hl
    obtain ⟨f, hf⟩ := leaf_present hx
    rw [he', elim_some, elim_some, haddr, (ptr_eq_some.mp hf).2]
    exact hd e f hx hf _ (Nat.mod_lt _ (by decide))

section

variable (h : Good pl roots held) {x : Nat} (hf : Forked pl roots held r x pl')
  (hs : Rooted roots s r)
include h hf hs

lemma Forked.bytes_child (a : Nat) : byteAt pl'.phys x a = byteAt pl.phys r a := by
  refine byteAt_of_addr ?_ fun e f he hptr => ?_
  · rw [hf.child, Option.map_map]
    exact congrArg (Option.map · _) (funext Pte.addr_readOnly)
  · exact (hf.data f (h.data_of_leaf (h.mem_of_leaf hs he) he hptr)).2

omit hs in
lemma Forked.bytes {y : Nat} (hy : y = 0 ∨ y ∈ roots) (a : Nat) :
    byteAt pl'.phys y a = byteAt pl.phys y a := by
  rcases hy with rfl | hy
  · rw [byteAt_eq, byteAt_eq, h.leaf_null, hf.good.leaf_null]
    rfl
  refine byteAt_of_addr ?_ fun e f he hptr => (hf.data f (h.data_of_leaf hy he hptr)).2
  by_cases hyr : y = r
  · rw [hyr, hf.parent, Option.map_map]
    exact congrArg (Option.map · _) (funext Pte.addr_readOnly)
  · rw [hf.others y hy hyr]

end

/-! ### Runs -/

namespace Sys

lemma Sane.space {s : Sys} (h : Sane s roots held) {g : GuestMemory}
    (hg : g ∈ s.spaces) : ∃ x, Rooted roots g.space x := by
  obtain ⟨j, hj⟩ := List.getElem?_of_mem hg
  exact h.rooted j g hj

section

variable {ceiling : Nat} {image : Nat → Byte} {base vsize physBytes i : Nat} {s₀ s s' : Sys}
  {g : GuestMemory} (hboot : boot ceiling image base vsize physBytes = some s₀)
  (hrun : Relation.ReflTransGen (Next Lawful) s₀ s)
include hboot hrun

/-- **A failed fork is not seen.** From every state of a run, a fork that fails leaves the spaces,
what they translate and read, the number of frames in use, and every refcount that does not
saturate. -/
theorem failed_fork_unseen (hs : s.step (.tryFork i) = some (false, s')) :
    s'.spaces = s.spaces ∧ s'.pool.fa.allocated = s.pool.fa.allocated ∧
      (∀ f, s'.pool.fa.refcount f = s.pool.fa.refcount f ∨ s'.pool.fa.refcount f = pinned) ∧
      ∀ g ∈ s.spaces,
        (∀ va, g.space.translate va s'.pool.phys = g.space.translate va s.pool.phys) ∧
        ∀ a len bs, g.read s.pool a len = .ok bs → g.read s'.pool a len = .ok bs := by
  obtain ⟨roots, lost, hsane⟩ := Sane.run hboot hrun
  simp only [Sys.step] at hs
  split at hs
  · cases hs
  rename_i g hi
  obtain ⟨r, hr⟩ := hsane.rooted i g hi
  have hspec := forkCow_spec hsane.good hr.mem hr.pml4
  split at hs
  · cases hs
  next g' pl' hfork =>
    cases hs
    obtain ⟨rfl, hcow⟩ := forkCow_of_tryFork hfork
    rw [hcow] at hspec
    refine ⟨?_, hspec.allocated_eq hsane.good hr.mem, fun f => (hspec.rc f).imp_right And.left, ?_⟩
    · obtain ⟨hlt, rfl⟩ := List.getElem?_eq_some_iff.mp hi
      exact List.set_getElem_self hlt
    intro g₁ hg₁
    obtain ⟨x, hx⟩ := hsane.space hg₁
    exact ⟨hspec.translate_eq hsane.good hx,
      fun a len bs => (hspec.backs hsane.good).read hsane.good hspec.good hx⟩
  · cases hs

/-- **`fork_cow` shares**, from every state of a run: the child is new and shows what the parent
shows, neither may write any more, and no byte of any space changes; or nothing changes that is
translated. -/
theorem fork_shares (hi : s.spaces[i]? = some g) : match g.space.forkCow s.pool with
      | (some child, pl) => (∀ va, child.translate va pl.phys =
            (g.space.translate va s.pool.phys).map Translation.unwritable ∧
          g.space.translate va pl.phys =
            (g.space.translate va s.pool.phys).map Translation.unwritable) ∧
        (∀ a len, copyOut child pl len a len = copyOut g.space s.pool len a len) ∧
        ∀ g₁ ∈ s.spaces, g₁.space.pml4 ≠ child.pml4 ∧
          (∀ a len, copyOut g₁.space pl len a len = copyOut g₁.space s.pool len a len) ∧
          (g₁.space.pml4 ≠ g.space.pml4 →
            ∀ va, g₁.space.translate va pl.phys = g₁.space.translate va s.pool.phys)
      | (none, pl) => ∀ g₁ ∈ s.spaces, ∀ va,
        g₁.space.translate va pl.phys = g₁.space.translate va s.pool.phys := by
  obtain ⟨roots, lost, hsane⟩ := Sane.run hboot hrun
  obtain ⟨r, hr⟩ := hsane.rooted i g hi
  have hspec := forkCow_spec hsane.good hr.mem hr.pml4
  cases hres : g.space.forkCow s.pool with
  | mk res pl =>
    rw [hres] at hspec
    cases res with
    | none =>
      intro g₁ hg₁
      obtain ⟨y, hy⟩ := hsane.space hg₁
      exact hspec.translate_eq hsane.good hy
    | some child =>
      obtain ⟨x, rfl, hf⟩ := hspec
      dsimp only at hf ⊢
      refine ⟨fun va => ⟨?_, ?_⟩, fun a len => ?_, fun g₁ hg₁ => ?_⟩
      · rw [translate_eq (r := x) rfl, translate_eq hr.pml4, hf.child, Option.map_map, Option.map_map]
        exact congrArg (Option.map · _) (funext fun e => translationOf_readOnly e va)
      · rw [translate_eq hr.pml4, translate_eq hr.pml4, hf.parent, Option.map_map, Option.map_map]
        exact congrArg (Option.map · _) (funext fun e => translationOf_readOnly e va)
      · rw [copyOut_eq (r := x) rfl _ len a len le_rfl, copyOut_eq hr.pml4 _ len a len le_rfl]
        simp only [hf.bytes_child hsane.good hr]
      obtain ⟨y, hy⟩ := hsane.space hg₁
      have hyp := hy.pml4
      refine ⟨fun heq => ?_, fun a len => ?_, fun hne va => ?_⟩
      · have heq : g₁.space.pml4 = x * 4096 := heq
        obtain rfl : y = x := by omega
        exact hy.mem.elim hf.ne_zero hf.new
      · rw [copyOut_eq hyp _ len a len le_rfl, copyOut_eq hyp _ len a len le_rfl]
        simp only [hf.bytes hsane.good hy.mem]
      · rw [translate_eq hyp, translate_eq hyp]
        rcases hy.mem with rfl | hmem
        · rw [hsane.good.leaf_null, hf.good.leaf_null]
        · have hrr := hr.pml4
          rw [hf.others y hmem fun h => hne (by omega)]

end

theorem failed_fork_unseen_starved : ∃ s₀ s s',
    boot (2 ^ 30) (fun _ => 0) 65536 65536 16384 = some s₀ ∧
    steps [.call 0 (.map 65536 16384 .rw), .call 0 (.write 77824 [7]), .allocFrames 59] s₀ =
      some s ∧ s.step (.tryFork 0) = some (false, s') ∧ s'.spaces = s.spaces ∧
    s'.pool.fa.allocated = s.pool.fa.allocated := by
  obtain ⟨s₀, s, hboot, hsteps, h⟩ := exists_of_steps
    (boot (2 ^ 30) (fun _ => 0) 65536 65536 16384)
    [.call 0 (.map 65536 16384 .rw), .call 0 (.write 77824 [7]), .allocFrames 59]
    (P := fun s : Sys => (s.step (.tryFork 0)).map Prod.fst = some false) (by decide +kernel)
  obtain ⟨⟨b, s'⟩, hs, rfl⟩ := Option.map_eq_some_iff.mp h
  have hreach := reach_of_steps Lawful _ (fun op hop s => by
    fin_cases hop <;> exact trivial) hsteps
  obtain ⟨hspaces, hcount, -⟩ := failed_fork_unseen hboot hreach hs
  exact ⟨s₀, s, s', hboot, hsteps, hs, hspaces, hcount⟩

/-- A space that was written to. -/
theorem fork_shares_written : ∃ s₀ s g,
    boot (2 ^ 30) (fun _ => 0) 65536 65536 16384 = some s₀ ∧
    steps [.call 0 (.map 65536 16384 .rw), .call 0 (.write 77824 [7])] s₀ = some s ∧
    s.spaces[0]? = some g ∧ ∀ child pl, g.space.forkCow s.pool = (some child, pl) →
      child.pml4 ≠ g.space.pml4 ∧
      ∀ a len, copyOut child pl len a len = copyOut g.space s.pool len a len := by
  obtain ⟨s₀, s, hboot, hsteps, h⟩ := exists_of_steps
    (boot (2 ^ 30) (fun _ => 0) 65536 65536 16384)
    [.call 0 (.map 65536 16384 .rw), .call 0 (.write 77824 [7])]
    (P := fun s => s.spaces[0]?.isSome) (by decide +kernel)
  obtain ⟨g, hg⟩ := Option.isSome_iff_exists.mp h
  have hreach := reach_of_steps Lawful _ (fun op hop s => by
    fin_cases hop <;> exact trivial) hsteps
  have hspec := fork_shares hboot hreach hg
  refine ⟨s₀, s, g, hboot, hsteps, hg, fun child pl hf => ?_⟩
  rw [hf] at hspec
  obtain ⟨-, hcopy, hothers⟩ := hspec
  exact ⟨fun heq => (hothers g (List.mem_of_getElem? hg)).1 heq.symm, hcopy⟩

end Sys

end NixVm
