/-
Reads and stores, byte by byte.

`byteAt` is the byte a read of a mapped address gives, and `poke` the store of one byte through the
tables.
-/
import NixVm.Proofs.Page

namespace NixVm

open Finset Radix List Option

variable {s : AddrSpace}

lemma path_of_div {va vb : Nat} (h : va / 4096 = vb / 4096) : path va = path vb := by
  rw [path_inj, h]

lemma leaf_of_div (m : PhysMem) (r : Nat) {va vb : Nat} (h : va / 4096 = vb / 4096) :
    leaf m r va = leaf m r vb := by
  rw [leaf, leaf, path_of_div h]

lemma view_of_path (m : PhysMem) (r : Nat) {va vb : Nat} (h : path va = path vb) :
    view m r va = view m r vb := by
  rw [view, view, leaf, leaf, h]

lemma view_of_div (m : PhysMem) (r : Nat) {va vb : Nat} (h : va / 4096 = vb / 4096) :
    view m r va = view m r vb := view_of_path m r (path_of_div h)

/-- The byte at `a`, in the tree at `r`; 0 where there is no frame. -/
def byteAt (m : PhysMem) (r a : Nat) : Byte :=
  match view m r a with
  | some (_, b) => b ⟨a % 4096, Nat.mod_lt _ (by omega)⟩
  | none => 0

lemma byteAt_congr {m m' : PhysMem} {r a : Nat} (h : view m' r a = view m r a) :
    byteAt m' r a = byteAt m r a := by
  rw [byteAt, byteAt, h]

lemma chunk_eq {r : Nat} (hs : s.pml4 = r * 4096) (m : PhysMem)
    {a n : Nat} (hn : a % 4096 + n ≤ 4096) : (match s.translate a m with
      | some t => m.read t.paddr n
      | none => List.replicate n 0) = (List.range n).map fun k => byteAt m r (a + k) := by
  have hview : ∀ k, k < n → view m r (a + k) = view m r a :=
    fun k hk => view_of_div m r (by omega)
  rw [translate_eq hs]
  cases hl : leaf m r a with
  | none =>
    refine ext_getElem (by simp) fun k hk _ => ?_
    have hk' : k < n := by simpa using hk
    simp [byteAt, hview k hk', view_none.mpr hl]
  | some e =>
    refine ext_getElem (by simp [PhysMem.read]) fun k hk _ => ?_
    have hk' : k < n := by simpa [PhysMem.read] using hk
    have hmod : (a + k) % 4096 = a % 4096 + k := by omega
    have hv : view m r (a + k) = some (e, fun k : Fin 4096 => m.byte (Pte.addr e + k)) := by
      rw [hview k hk', view, hl, map_some]
    simp only [map_some, PhysMem.read, Bytes.read, getElem_map, getElem_range,
      paddr_eq, byteAt, hv, hmod, add_assoc]

/-- **`copyOut`** gives the byte at each address. -/
lemma copyOut_eq {r : Nat} (hs : s.pml4 = r * 4096) (pl : Pool) (fuel : Nat) :
    ∀ addr len, len ≤ fuel → GuestMemory.copyOut s pl fuel addr len
      = (List.range len).map fun k => byteAt pl.phys r (addr + k) := by
  induction fuel with
  | zero =>
    intro addr len hle
    obtain rfl : len = 0 := by omega
    rfl
  | succ fuel ih =>
    intro addr len hle
    rw [GuestMemory.copyOut]
    by_cases h0 : len = 0
    · simp [h0]
    rw [if_neg h0]
    have hlen : len = min len (4096 - addr % 4096) + (len - min len (4096 - addr % 4096)) := by
      omega
    refine (congrArg₂ (· ++ ·) (chunk_eq hs pl.phys (a := addr)
      (n := min len (4096 - addr % 4096)) (by omega)) (ih _ _ (by omega))).trans ?_
    conv_rhs => rw [hlen, List.range_add, List.map_append, List.map_map]
    congr 1
    refine List.map_congr_left fun k _ => ?_
    simp only [Function.comp_apply, Nat.add_assoc]

def poke (r a : Nat) (b : Byte) (m : PhysMem) : PhysMem :=
  match leaf m r a with
  | some e => m.write (Pte.addr e + a % 4096) [b]
  | none => m

def pokes (r : Nat) : Nat → List Byte → PhysMem → PhysMem
  | _, [], m => m
  | a, b :: bs, m => pokes r (a + 1) bs (poke r a b m)

lemma pokes_append (r a : Nat) (bs cs : List Byte) (m : PhysMem) :
    pokes r a (bs ++ cs) m = pokes r (a + bs.length) cs (pokes r a bs m) := by
  induction bs generalizing a m with
  | nil => rfl
  | cons b bs ih =>
    simp only [cons_append, pokes, ih, length_cons]
    congr 1
    omega

lemma write_single (m : PhysMem) (pa : Nat) (b : Byte) (x : Nat) :
    (m.write pa [b]).byte x = if x = pa then b else m.byte x := by
  change Bytes.store m.byte pa 1 (fun i => [b].getD i 0) x = _
  by_cases hx : x = pa
  · rw [if_pos hx, Bytes.store_of_mem _ _ (by omega)]
    simp [hx]
  · rw [if_neg hx, Bytes.store_of_disjoint _ _ (by omega)]

lemma write_nil (m : PhysMem) (pa : Nat) : m.write pa [] = m := by
  refine congrArg (fun y => PhysMem.mk y m.size) (funext fun x => ?_)
  exact Bytes.store_of_disjoint _ _ (by simp only [length_nil]; omega)

lemma write_cons (m : PhysMem) (pa : Nat) (b : Byte) (bs : List Byte) :
    m.write pa (b :: bs) = (m.write pa [b]).write (pa + 1) bs := by
  refine congrArg (fun y => PhysMem.mk y m.size) (funext fun x => ?_)
  change Bytes.store m.byte pa (bs.length + 1) (fun i => (b :: bs).getD i 0) x
    = Bytes.store (m.write pa [b]).byte (pa + 1) bs.length (fun i => bs.getD i 0) x
  rcases Nat.lt_trichotomy x pa with hlt | rfl | hgt
  · rw [Bytes.store_of_disjoint _ _ (by omega), Bytes.store_of_disjoint _ _ (by omega),
      write_single, if_neg (by omega)]
  · rw [Bytes.store_of_mem _ _ (by omega), Bytes.store_of_disjoint _ _ (by omega), write_single]
    simp
  by_cases hin : x < pa + 1 + bs.length
  · rw [Bytes.store_of_mem _ _ (by omega), Bytes.store_of_mem _ _ (by omega)]
    have hsub : x - pa = x - (pa + 1) + 1 := by omega
    rw [hsub]
    rfl
  · rw [Bytes.store_of_disjoint _ _ (by omega), Bytes.store_of_disjoint _ _ (by omega),
      write_single, if_neg (by omega)]

section Store

variable {pl : Pool} {roots : Finset Nat} {held : Nat → Nat} {r : Nat}

lemma same_write {f pa g : Nat} {b : Byte} (m : PhysMem)
    (hpa : f * 4096 ≤ pa ∧ pa < f * 4096 + 4096) (hg : g ≠ f) : Same m (m.write pa [b]) g := by
  intro k hk
  rw [write_single, if_neg (by omega)]

lemma poke_spec (h : Good pl roots held) (hr : r ∈ roots) (a : Nat) (b : Byte) :
    Good { pl with phys := poke r a b pl.phys } roots held ∧
      Steady pl.phys roots (poke r a b pl.phys) := by
  unfold poke
  cases hl : leaf pl.phys r a with
  | none => exact ⟨h, fun _ _ _ _ => rfl⟩
  | some e =>
    have ⟨f, hf⟩ := leaf_present hl
    have hd := h.data_of_leaf hr hl hf
    have hrange : f * 4096 ≤ Pte.addr e + a % 4096 ∧
        Pte.addr e + a % 4096 < f * 4096 + 4096 := by
      rw [(ptr_eq_some.mp hf).2]
      omega
    have hsteady : Steady pl.phys roots (pl.phys.write (Pte.addr e + a % 4096) [b]) := by
      intro t ht
      refine same_write pl.phys hrange ?_
      rintro rfl
      exact hd.notTable ht
    exact ⟨h.fill hsteady (same_write pl.phys hrange (Ne.symm (h.used_of_leaf hr hl hf).1)),
      hsteady⟩

lemma pokes_spec (hr : r ∈ roots) (bs : List Byte) : ∀ {pl : Pool} (a : Nat),
    Good pl roots held → Good { pl with phys := pokes r a bs pl.phys } roots held ∧
      Steady pl.phys roots (pokes r a bs pl.phys) := by
  induction bs with
  | nil => intro pl a h; exact ⟨h, fun _ _ _ _ => rfl⟩
  | cons b bs ih =>
    intro pl a h
    have ⟨hg, hs⟩ := poke_spec h hr a b
    have ⟨hg', hs'⟩ := ih (a + 1) hg
    exact ⟨hg', hs.trans hs'⟩

lemma write_eq_pokes (hr : r ∈ roots) (bs : List Byte) :
    ∀ {pl : Pool} {a : Nat} {e : BitVec 64}, Good pl roots held → leaf pl.phys r a = some e →
      a % 4096 + bs.length ≤ 4096 →
      pl.phys.write (Pte.addr e + a % 4096) bs = pokes r a bs pl.phys := by
  induction bs with
  | nil => intro pl a e _ _ _; exact write_nil ..
  | cons b bs ih =>
    intro pl a e h hl hlen
    have ⟨hg, hs⟩ := poke_spec h hr a b
    have hpoke : poke r a b pl.phys = pl.phys.write (Pte.addr e + a % 4096) [b] := by
      rw [poke, hl]
    rw [write_cons, ← hpoke, pokes]
    cases bs with
    | nil => exact write_nil ..
    | cons c cs =>
      simp only [length_cons] at hlen
      have hl' : leaf (poke r a b pl.phys) r (a + 1) = some e := by
        rw [hs.quiet r hr, leaf_of_div _ _ (by omega : (a + 1) / 4096 = a / 4096), hl]
      have hmod : (a + 1) % 4096 = a % 4096 + 1 := by omega
      have := ih hg hl' (by simp only [length_cons]; omega)
      rwa [hmod, ← add_assoc] at this

/-- **`copyChunks`** stores each byte, as long as every page has a frame. -/
lemma copyChunks_eq (hr : r ∈ roots) (hs : s.pml4 = r * 4096) (fuel : Nat) :
    ∀ {pl : Pool} (addr : Nat) (buf : List Byte), Good pl roots held → buf.length ≤ fuel →
      (∀ k, k < buf.length → leaf pl.phys r (addr + k) ≠ none) →
      GuestMemory.copyChunks s fuel addr buf pl
        = (.ok (), { pl with phys := pokes r addr buf pl.phys }) := by
  induction fuel with
  | zero =>
    intro pl addr buf _ hle _
    obtain rfl : buf = [] := length_eq_zero_iff.mp (by omega)
    rfl
  | succ fuel ih =>
    intro pl addr buf h hle hall
    rw [GuestMemory.copyChunks]
    by_cases h0 : buf = []
    · subst h0; rfl
    have hpos : 0 < buf.length := length_pos_iff.mpr h0
    rw [if_neg h0, translate_eq hs]
    obtain ⟨e, hl⟩ : ∃ e, leaf pl.phys r addr = some e := ne_none_iff_exists'.mp (hall 0 hpos)
    have hn : addr % 4096 + (buf.take (min buf.length (4096 - addr % 4096))).length
        ≤ 4096 := by
      rw [length_take]; omega
    simp only [hl, map_some, paddr_eq]
    rw [write_eq_pokes hr _ h hl hn]
    have ⟨hg, hst⟩ := pokes_spec hr (buf.take (min buf.length (4096 - addr % 4096))) addr h
    rw [ih _ _ hg (by rw [length_drop]; omega) fun k hk => ?_]
    · congr 2
      conv_rhs => rw [← take_append_drop (min buf.length (4096 - addr % 4096)) buf]
      rw [pokes_append]
      congr 1
      rw [length_take]
      omega
    · rw [length_drop] at hk
      rw [hst.quiet r hr, add_assoc]
      exact hall _ (by omega)

lemma copyChunks_moves (hs : Rooted roots s r) (fuel : Nat) :
    ∀ {pl : Pool} (addr : Nat) (buf : List Byte), Good pl roots held →
      Moves pl roots held 0 Nowhere (GuestMemory.copyChunks s fuel addr buf pl).2 := by
  induction fuel with
  | zero => intro pl addr buf h; exact Moves.refl h
  | succ fuel ih =>
    intro pl addr buf h
    rw [GuestMemory.copyChunks]
    split
    · exact Moves.refl h
    rw [translate_eq hs.pml4]
    cases hl : leaf pl.phys r addr with
    | none => exact Moves.refl h
    | some e =>
      have hr := h.mem_of_leaf hs hl
      have hn : addr % 4096 + (buf.take (min buf.length (4096 - addr % 4096))).length
          ≤ 4096 := by
        rw [length_take]; omega
      simp only [map_some, paddr_eq]
      rw [write_eq_pokes hr _ h hl hn]
      obtain ⟨hg, hst⟩ := pokes_spec hr (buf.take (min buf.length (4096 - addr % 4096))) addr h
      have hone : Moves pl roots held 0 Nowhere
          ⟨pl.fa, pokes r addr (buf.take (min buf.length (4096 - addr % 4096))) pl.phys⟩ :=
        ⟨hg, fun s hs vb _ => hst.quiet s hs vb, fun _ => by simp, fun _ hf => hf⟩
      exact hone.trans_same (ih _ _ hg)

end Store

end NixVm
