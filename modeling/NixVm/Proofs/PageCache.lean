/-
Reads, writes and shared mappings of a file agree, and what is stored reaches the file.

Both come from one invariant. The byte a reader sees is the one last stored; a page that is mapped
is cached; and where the cache is ahead of the file, a record is left of a writable mapping of that
page, all of whose pages are still mapped.
-/
import NixVm.Kernel.PageCache

namespace NixVm.PageCache

open List State

variable {s s' : State} {e d : Pte} {m : SharedMap} {x i proc page n : Nat}

/-! ### The invariant -/

def State.byteAt (s : State) (x : Nat) : UInt8 :=
  match s.cache (x / pageSize) with
  | some c => c (x % pageSize)
  | none => s.disk x

/-- The record is of a mapping that has the file's page `i` at `page`. -/
def SharedMap.Has (m : SharedMap) (page i : Nat) : Prop :=
  ∃ j < m.pages, page = m.base + j ∧ i = m.first + j

structure State.Inv (s : State) : Prop where
  view : ∀ x, s.byteAt x = s.latest x
  past : ∀ x, s.size ≤ x → s.latest x = 0 ∧ s.disk x = 0
  cached : ∀ e ∈ s.ptes, ∀ i, e.shown = .file i → s.cache i ≠ none
  uniq : ∀ e ∈ s.ptes, ∀ d ∈ s.ptes, e.proc = d.proc → e.page = d.page → e = d
  nonempty : ∀ m ∈ s.maps, 0 < m.pages
  mapped : ∀ m ∈ s.maps, ∀ page i, m.Has page i →
    ∃ e ∈ s.ptes, e.proc = m.proc ∧ e.page = page ∧ e.shown = .file i ∧ e.read = true
  written : ∀ e ∈ s.ptes, ∀ i, e.shown = .file i → e.write = true →
    ∃ m ∈ s.maps, m.proc = e.proc ∧ m.Has e.page i
  dirty : ∀ x, s.byteAt x ≠ s.disk x → ∃ m ∈ s.maps, ∃ page, m.Has page (x / pageSize)

lemma State.pteAt_some (h : s.pteAt proc page = some e) :
    e ∈ s.ptes ∧ e.proc = proc ∧ e.page = page := by
  have hp := List.find?_some h
  simp only [Bool.and_eq_true, decide_eq_true_eq] at hp
  exact ⟨mem_of_find?_eq_some h, hp⟩

lemma State.Inv.pteAt (h : s.Inv) (he : e ∈ s.ptes) : s.pteAt e.proc e.page = some e := by
  cases hf : s.pteAt e.proc e.page with
  | none =>
    have := List.find?_eq_none.mp hf e he
    simp at this
  | some d =>
    obtain ⟨hd, hp, hq⟩ := pteAt_some hf
    rw [h.uniq d hd e he hp hq]

lemma State.Inv.readable (h : s.Inv) (he : e ∈ s.ptes) : s.readable e.proc e.page = e.read := by
  unfold State.readable
  rw [h.pteAt he]

lemma State.Inv.memByte (h : s.Inv) (he : e ∈ s.ptes) (o : Nat) :
    s.memByte e.proc e.page o = s.shownByte o e.shown := by
  unfold State.memByte
  rw [h.pteAt he]

lemma shownByte_file {c : Bytes} (hc : s.cache i = some c) (o : Nat) :
    s.shownByte o (.file i) = c o := by
  unfold shownByte
  dsimp only
  rw [hc]

/-! ### Reads and writes -/

lemma inPage_iff (off len : Nat) (hlen : 0 < len) :
    inPage off len (x / pageSize) x = true ↔ off ≤ x ∧ x < off + len := by
  unfold inPage pageSize
  simp only [Bool.and_eq_true, decide_eq_true_eq]
  omega

lemma div_mul_add_mod : x / pageSize * pageSize + x % pageSize = x := by
  unfold pageSize
  omega

lemma State.Inv.vfsWrite (h : s.Inv) (off : Nat) (data : List UInt8) :
    (s.vfsWrite off data).Inv := by
  unfold State.vfsWrite
  split
  · exact h
  rename_i hdata
  have hlen : 0 < data.length := length_pos_iff.mpr hdata
  generalize hs' : ({ s with
    size := max s.size (off + data.length)
    disk := State.putAt off data s.disk
    cache := fun i => (s.cache i).map fun c o =>
      let x := i * pageSize + o
      if State.inPage off data.length i x then data.getD (x - off) 0 else c o
    latest := State.putAt off data s.latest } : State) = s'
  have hcache : ∀ i, s'.cache i = none → s.cache i = none := by
    subst hs'
    intro i hi
    exact Option.map_eq_none_iff.mp hi
  -- a byte in the range is new in both copies, another is as it was
  have hbyte : ∀ x, s'.byteAt x = State.putAt off data s.byteAt x := by
    subst hs'
    intro x
    unfold State.byteAt State.putAt
    dsimp only
    cases hc : s.cache (x / pageSize) with
    | none => rfl
    | some c =>
      dsimp only [Option.map_some]
      rw [div_mul_add_mod]
      by_cases hin : off ≤ x ∧ x < off + data.length
      · rw [if_pos ((inPage_iff off data.length hlen).mpr hin), if_pos hin]
      · rw [if_neg (fun hp => hin ((inPage_iff off data.length hlen).mp hp)), if_neg hin]
  subst hs'
  refine ⟨fun x => ?_, fun x hx => ?_, fun e he i hi hn => h.cached e he i hi (hcache i hn),
    h.uniq, h.nonempty, h.mapped, h.written, fun x hx => ?_⟩
  · rw [hbyte]
    unfold State.putAt
    rw [h.view]
  · have hx' : max s.size (off + data.length) ≤ x := hx
    have hout : ¬(off ≤ x ∧ x < off + data.length) := by omega
    unfold State.putAt
    dsimp only
    rw [if_neg hout, if_neg hout]
    exact h.past x (by omega)
  rw [hbyte] at hx
  unfold State.putAt at hx
  dsimp only at hx
  split at hx
  · exact absurd rfl hx
  · exact h.dirty x hx

lemma State.Inv.vfsTruncate (h : s.Inv) (len : Nat) : (s.vfsTruncate len).Inv := by
  have hbyte : ∀ x, (s.vfsTruncate len).byteAt x = if x < len then s.byteAt x else 0 := by
    intro x
    unfold State.byteAt State.vfsTruncate
    dsimp only
    by_cases hx : x < len
    · rw [if_pos hx, if_pos hx]
      by_cases hpage : len / pageSize ≤ x / pageSize
      · rw [if_pos hpage]
        cases hc : s.cache (x / pageSize) with
        | none => rfl
        | some c =>
          dsimp only [Option.map_some]
          rw [if_neg]
          unfold pageSize
          omega
      · rw [if_neg hpage]
    · rw [if_neg hx, if_neg hx, if_pos (Nat.div_le_div_right (Nat.le_of_not_lt hx))]
      cases hc : s.cache (x / pageSize) with
      | none => rfl
      | some c =>
        dsimp only [Option.map_some]
        rw [if_pos]
        unfold pageSize
        omega
  refine ⟨fun x => ?_, fun x hx => ?_, fun e he i hi hn => ?_, h.uniq, h.nonempty, h.mapped,
    h.written, fun x hx => ?_⟩
  · rw [hbyte, h.view]
    rfl
  · have hx' : ¬x < len := Nat.not_lt.mpr hx
    exact ⟨if_neg hx', if_neg hx'⟩
  · refine h.cached e he i hi ?_
    unfold State.vfsTruncate at hn
    dsimp only at hn
    split at hn
    · exact Option.map_eq_none_iff.mp hn
    · exact hn
  · rw [hbyte] at hx
    change (if x < len then s.byteAt x else 0) ≠ (if x < len then s.disk x else 0) at hx
    split at hx
    · exact h.dirty x hx
    · exact absurd rfl hx

/-! ### Stores -/

lemma State.Inv.storeFile (h : s.Inv) {o : Nat} {v : UInt8} (ho : o < pageSize)
    (he : e ∈ s.ptes) (hi : e.shown = .file i) (hwrite : e.write = true)
    (hlt : i * pageSize + o < s.size) : State.Inv { s with
      cache := fun j => if j = i then (s.cache i).map fun c p => if p = o then v else c p
        else s.cache j
      latest := fun x => if x = i * pageSize + o then v else s.latest x } := by
  obtain ⟨c, hc⟩ := Option.ne_none_iff_exists'.mp (h.cached e he i hi)
  have hdiv : (i * pageSize + o) / pageSize = i := by
    unfold pageSize at *
    omega
  generalize hs' : ({ s with
    cache := fun j => if j = i then (s.cache i).map fun c p => if p = o then v else c p
      else s.cache j
    latest := fun x => if x = i * pageSize + o then v else s.latest x } : State) = s'
  have hbyte : ∀ x, s'.byteAt x = if x = i * pageSize + o then v else s.byteAt x := by
    subst hs'
    intro x
    unfold byteAt
    dsimp only
    by_cases hx : x / pageSize = i
    · rw [if_pos hx, hx, hc]
      dsimp only [Option.map_some]
      have hmod : x % pageSize = o ↔ x = i * pageSize + o := by
        unfold pageSize at *
        omega
      simp only [hmod]
    · rw [if_neg hx, if_neg fun heq => hx (by rw [heq, hdiv])]
  subst hs'
  refine ⟨fun x => ?_, fun x hx => ?_, fun d hd j hj => ?_, h.uniq, h.nonempty, h.mapped,
    h.written, fun x hx => ?_⟩
  · rw [hbyte, h.view]
  · have hne : x ≠ i * pageSize + o := fun heq => by
      have : s.size ≤ x := hx
      omega
    exact ⟨(if_neg hne).trans (h.past x hx).1, (h.past x hx).2⟩
  · dsimp only
    split
    · rw [hc]
      nofun
    · exact h.cached d hd j hj
  rw [hbyte] at hx
  split at hx
  next heq =>
    obtain ⟨m, hm, -, hhas⟩ := h.written e he i hi hwrite
    exact ⟨m, hm, e.page, by rw [heq, hdiv]; exact hhas⟩
  · exact h.dirty x hx

lemma State.Inv.storeOwn (h : s.Inv) {b b' : Bytes} (he : s.pteAt proc page = some e)
    (hb : e.shown = .own b) : State.Inv { s with
      ptes := s.ptes.map fun d => if d.proc = proc && d.page = page then
        { d with shown := .own b' } else d } := by
  obtain ⟨he, hproc, hpage⟩ := pteAt_some he
  have hfile : ∀ d ∈ s.ptes, ∀ j, d.shown = .file j →
      ¬(decide (d.proc = proc) && decide (d.page = page)) = true := by
    intro d hd j hj hdp
    rw [Bool.and_eq_true, decide_eq_true_eq, decide_eq_true_eq] at hdp
    rw [h.uniq d hd e he (hdp.1.trans hproc.symm) (hdp.2.trans hpage.symm), hb] at hj
    cases hj
  have hback : ∀ d' ∈ s.ptes.map fun d => if d.proc = proc && d.page = page then
        { d with shown := .own b' } else d, ∀ j, d'.shown = .file j → d' ∈ s.ptes := by
    intro d' hd' j hj
    obtain ⟨d, hd, rfl⟩ := mem_map.mp hd'
    split at hj
    · cases hj
    rename_i hn
    rwa [if_neg hn]
  have hsame : ∀ g : Pte, (if g.proc = proc && g.page = page then
      { g with shown := .own b' } else g : Pte).proc = g.proc ∧
      (if g.proc = proc && g.page = page then
        { g with shown := .own b' } else g : Pte).page = g.page := by
    intro g
    split <;> exact ⟨rfl, rfl⟩
  refine ⟨h.view, h.past, fun d' hd' j hj => h.cached d' (hback d' hd' j hj) j hj,
    fun d' hd' f' hf' hp hq => ?_, h.nonempty, fun m hm pg j hhas => ?_,
    fun d' hd' j hj => h.written d' (hback d' hd' j hj) j hj, h.dirty⟩
  · obtain ⟨d, hd, rfl⟩ := mem_map.mp hd'
    obtain ⟨f, hf, rfl⟩ := mem_map.mp hf'
    rw [(hsame d).1, (hsame f).1] at hp
    rw [(hsame d).2, (hsame f).2] at hq
    rw [h.uniq d hd f hf hp hq]
  · obtain ⟨d, hd, hrest⟩ := h.mapped m hm pg j hhas
    refine ⟨d, mem_map.mpr ⟨d, hd, if_neg (hfile d hd j hrest.2.2.1)⟩, hrest⟩

lemma State.Inv.store (h : s.Inv) {o : Nat} {v : UInt8} (ho : o < pageSize)
    (hin : ∀ e i, s.pteAt proc page = some e → e.shown = .file i → i * pageSize + o < s.size)
    (hs : s.store proc page o v = some s') : s'.Inv := by
  unfold State.store at hs
  split at hs
  · cases hs
  rename_i e hpte
  split at hs
  · cases hs
  rename_i hwrite
  split at hs
  next i hi =>
    cases hs
    exact h.storeFile ho (State.pteAt_some hpte).1 hi (by simpa using hwrite) (hin e i hpte hi)
  rename_i b hb
  cases hs
  exact h.storeOwn hpte hb

/-! ### Mappings that come -/

lemma within_iff : e.within proc page n = true ↔
    e.proc = proc ∧ page ≤ e.page ∧ e.page < page + n := by
  simp only [Pte.within, Bool.and_eq_true, decide_eq_true_eq, and_assoc]

lemma not_within (hw : e.within proc page n = false) (hp : e.proc = proc) :
    e.page < page ∨ page + n ≤ e.page := by
  by_contra hc
  rw [within_iff.mpr ⟨hp, by omega, by omega⟩] at hw
  cases hw

/-- A mapping that fails on its first page, where nothing was, maps and unmaps nothing. -/
lemma State.unmapRange_first (hfree : ∀ e ∈ s.ptes, e.within proc page n = false) :
    s.unmapRange proc page (min 1 n) = s := by
  unfold State.unmapRange
  rw [filter_eq_self.mpr]
  intro e he
  have hout := hfree e he
  by_contra hin
  have hin := within_iff.mp (by simpa using hin : e.within proc page (min 1 n) = true)
  have := within_iff.mpr ⟨hin.1, hin.2.1, (by omega : e.page < page + n)⟩
  rw [hout] at this
  cases this

lemma overlaps_of_within (hp : e.proc = m.proc) (hhas : m.Has e.page i)
    (hw : e.within proc page n = true) : m.overlaps proc page n = true := by
  obtain ⟨hpe, hlo, hhi⟩ := within_iff.mp hw
  obtain ⟨j, hj, hpage, -⟩ := hhas
  simp only [SharedMap.overlaps, Bool.and_eq_true, decide_eq_true_eq]
  refine ⟨⟨hp.symm.trans hpe, ?_⟩, ?_⟩ <;> omega

section

variable (h : s.Inv)
include h

lemma State.Inv.unmapRange
    (hno : ∀ m ∈ s.maps, m.overlaps proc page n = false) : (s.unmapRange proc page n).Inv := by
  have hmem : ∀ e ∈ (s.unmapRange proc page n).ptes, e ∈ s.ptes :=
    fun e he => (mem_filter.mp he).1
  refine ⟨h.view, h.past, fun e he => h.cached e (hmem e he),
    fun e he d hd => h.uniq e (hmem e he) d (hmem d hd), h.nonempty, fun m hm pg j hhas => ?_,
    fun e he => h.written e (hmem e he), h.dirty⟩
  obtain ⟨e, he, hp, hq, hrest⟩ := h.mapped m hm pg j hhas
  refine ⟨e, mem_filter.mpr ⟨he, ?_⟩, hp, hq, hrest⟩
  by_contra hw
  have hover := overlaps_of_within hp (hq ▸ hhas) (by simpa using hw)
  rw [hno m hm] at hover
  cases hover

lemma State.Inv.addPtes {new : List Pte}
    (hfree : ∀ e ∈ s.ptes, ∀ d ∈ new, ¬(e.proc = d.proc ∧ e.page = d.page))
    (huniq : ∀ e ∈ new, ∀ d ∈ new, e.proc = d.proc → e.page = d.page → e = d)
    (hcached : ∀ e ∈ new, ∀ i, e.shown = .file i → s.cache i ≠ none) {maps : List SharedMap}
    (hsub : ∀ m ∈ s.maps, m ∈ maps)
    (hmaps : ∀ m ∈ maps, m ∉ s.maps → 0 < m.pages ∧ ∀ page i, m.Has page i →
      ∃ e ∈ new, e.proc = m.proc ∧ e.page = page ∧ e.shown = .file i ∧ e.read = true)
    (hwritten : ∀ e ∈ new, ∀ i, e.shown = .file i → e.write = true →
      ∃ m ∈ maps, m.proc = e.proc ∧ m.Has e.page i) :
    State.Inv { s with ptes := s.ptes ++ new, maps := maps } := by
  refine ⟨h.view, h.past, fun e he => ?_, fun e he d hd hp hq => ?_, fun m hm => ?_,
    fun m hm pg j hhas => ?_, fun e he i hi hw => ?_, fun x hx => ?_⟩
  · rcases mem_append.mp he with he | he
    · exact h.cached e he
    · exact hcached e he
  · rcases mem_append.mp he with he | he <;> rcases mem_append.mp hd with hd | hd
    · exact h.uniq e he d hd hp hq
    · exact absurd ⟨hp, hq⟩ (hfree e he d hd)
    · exact absurd ⟨hp.symm, hq.symm⟩ (hfree d hd e he)
    · exact huniq e he d hd hp hq
  · by_cases hold : m ∈ s.maps
    · exact h.nonempty m hold
    · exact (hmaps m hm hold).1
  · by_cases hold : m ∈ s.maps
    · obtain ⟨e, he, hrest⟩ := h.mapped m hold pg j hhas
      exact ⟨e, mem_append_left _ he, hrest⟩
    · obtain ⟨e, he, hrest⟩ := (hmaps m hm hold).2 pg j hhas
      exact ⟨e, mem_append_right _ he, hrest⟩
  · rcases mem_append.mp he with he | he
    · obtain ⟨m, hm, hrest⟩ := h.written e he i hi hw
      exact ⟨m, hsub m hm, hrest⟩
    · exact hwritten e he i hi hw
  · obtain ⟨m, hm, hrest⟩ := h.dirty x hx
    exact ⟨m, hsub m hm, hrest⟩

omit h in
lemma mem_unmapRange (he : e ∈ (s.unmapRange proc page n).ptes) :
    e ∈ s.ptes ∧ e.within proc page n = false := by
  obtain ⟨he, hw⟩ := mem_filter.mp he
  exact ⟨he, by simpa using hw⟩

lemma State.Inv.replace {read write : Bool} (hno : ∀ m ∈ s.maps, m.overlaps proc page n = false) :
    (s.replace proc page n read write).Inv := by
  refine (h.unmapRange hno).addPtes (fun e he d hd hsame => ?_) (fun e he d hd hp hq => ?_)
    (fun e he i hi => ?_) (fun _ hm => hm) (fun m hm hn => absurd hm hn) (fun e he i hi => ?_)
  · obtain ⟨j, hj, rfl⟩ := mem_map.mp hd
    rw [mem_range] at hj
    obtain ⟨-, hw⟩ := mem_unmapRange he
    have := not_within hw hsame.1
    have : e.page = page + j := hsame.2
    omega
  · obtain ⟨j, -, rfl⟩ := mem_map.mp he
    obtain ⟨k, -, rfl⟩ := mem_map.mp hd
    have hjk : j = k := Nat.add_left_cancel hq
    rw [hjk]
  · obtain ⟨j, -, rfl⟩ := mem_map.mp he
    cases hi
  · obtain ⟨j, -, rfl⟩ := mem_map.mp he
    cases hi

lemma State.Inv.fill (l : List Nat) (hl : ∀ i ∈ l, s.cache i = none) :
    State.Inv { s with cache := fun i => if i ∈ l then some (s.loaded i) else s.cache i } := by
  have hbyte : ∀ x, byteAt
      { s with cache := fun i => if i ∈ l then some (s.loaded i) else s.cache i } x =
      s.byteAt x := by
    intro x
    unfold byteAt
    dsimp only
    by_cases hx : x / pageSize ∈ l
    · rw [if_pos hx, hl _ hx]
      change (if x / pageSize * pageSize + x % pageSize < s.size then _ else _) = _
      rw [div_mul_add_mod]
      split
      · rfl
      rename_i hsize
      exact (h.past x (Nat.le_of_not_lt hsize)).2.symm
    · rw [if_neg hx]
  refine ⟨fun x => (hbyte x).trans (h.view x), h.past, fun e he i hi => ?_, h.uniq, h.nonempty,
    h.mapped, h.written, fun x hx => h.dirty x (by rwa [hbyte] at hx)⟩
  dsimp only
  split
  · nofun
  · exact h.cached e he i hi

lemma State.Inv.mmapShared {base first avail : Nat} {read write : Bool} {mapped : Mapped}
    (hfree : ∀ e ∈ s.ptes, e.within proc base n = false)
    (havail : avail = 0 ∨ (s.missing first n).length ≤ avail) (hread : write = true → read = true)
    (hall : ∀ k, mapped = .upTo k → k = 0) :
    (s.mmapShared proc base first n read write avail mapped).2.Inv := by
  unfold State.mmapShared
  dsimp only
  split
  · exact h
  rename_i hn
  split
  next hlt =>
    have h0 : avail = 0 := havail.resolve_right (by omega)
    rw [h0, take_zero]
    have hsame : ({ s with cache := fun i =>
        if i ∈ ([] : List Nat) then some (fun _ => 0) else s.cache i } : State) = s := by
      simp only [not_mem_nil, if_false]
    exact hsame ▸ h
  have hfill := h.fill (s.missing first n) fun i hi => by
    have := (mem_filter.mp hi).2
    simpa using this
  split
  · exact hfill
  next k =>
    obtain rfl := hall k rfl
    rw [zero_add, State.unmapRange_first (by exact hfree)]
    simpa [filePages] using hfill
  have hno : ∀ m ∈ s.maps, m.overlaps proc base n = false := by
    intro m hm
    by_contra hover
    simp only [SharedMap.overlaps, Bool.not_eq_false, Bool.and_eq_true, decide_eq_true_eq] at hover
    -- the page where the two begin to overlap is mapped
    obtain ⟨e, he, hp, hq, -⟩ := h.mapped m hm (m.base + (base - m.base)) (m.first + (base - m.base))
      ⟨base - m.base, by have := h.nonempty m hm; omega, rfl, rfl⟩
    have hw := not_within (hfree e he) (hp.trans hover.1.1)
    omega
  refine (hfill.unmapRange hno).addPtes (fun e he d hd hsame => ?_) (fun e he d hd hp hq => ?_)
    (fun e he i hi => ?_) (fun m hm => ?_) (fun m hm hnew => ?_) (fun e he i hi hw => ?_)
  · obtain ⟨j, hj, rfl⟩ := mem_map.mp hd
    rw [mem_range] at hj
    have hw := not_within (mem_unmapRange he).2 hsame.1
    have : e.page = base + j := hsame.2
    omega
  · obtain ⟨j, -, rfl⟩ := mem_map.mp he
    obtain ⟨k, -, rfl⟩ := mem_map.mp hd
    have hjk : j = k := Nat.add_left_cancel hq
    rw [hjk]
  · obtain ⟨j, hj, rfl⟩ := mem_map.mp he
    rw [mem_range] at hj
    cases hi
    change (if first + j ∈ s.missing first n then some (s.loaded (first + j))
      else s.cache (first + j)) ≠ none
    split
    · nofun
    rename_i hnot
    intro hnone
    refine hnot (mem_filter.mpr ⟨?_, by rw [hnone]; rfl⟩)
    exact mem_range'_1.mpr ⟨by omega, by omega⟩
  · split
    · exact mem_append_left _ hm
    · exact hm
  · split at hm
    next hw =>
      rcases mem_append.mp hm with hm | hm
      · exact absurd hm hnew
      rw [mem_singleton] at hm
      subst hm
      refine ⟨pos_of_ne_zero hn, fun pg i ⟨j, hj, hpg, hi⟩ => ?_⟩
      subst hpg hi
      exact ⟨_, mem_map.mpr ⟨j, mem_range.mpr hj, rfl⟩, rfl, rfl, rfl, hread hw⟩
    · exact absurd hm hnew
  obtain ⟨j, hj, rfl⟩ := mem_map.mp he
  cases hi
  have hw : write = true := hw
  rw [if_pos hw]
  exact ⟨⟨proc, base, n, first⟩, mem_append_right _ mem_cons_self, rfl, j,
    mem_range.mp hj, rfl, rfl⟩

/-! ### Mappings that go -/

lemma State.Inv.flushOne (hm : m ∈ s.maps) (disk : Bytes) (x : Nat) : s.flushOne false disk m x =
      if x < s.size ∧ m.first ≤ x / pageSize ∧ x / pageSize < m.first + m.pages then s.byteAt x
      else disk x := by
  unfold State.flushOne
  have hreadable : ((List.range ((min (s.size - m.first * pageSize) (m.pages * pageSize) +
      pageSize - 1) / pageSize)).all fun j => s.readable m.proc (m.base + j)) = true := by
    refine all_eq_true.mpr fun j hj => ?_
    have hj : j < m.pages := by
      rw [mem_range] at hj
      unfold pageSize at hj
      omega
    obtain ⟨e, he, hp, hq, -, hread⟩ := h.mapped m hm _ _ ⟨j, hj, rfl, rfl⟩
    rw [← hp, ← hq, h.readable he]
    exact hread
  rw [hreadable]
  have hrange : (m.first * pageSize ≤ x ∧ x < m.first * pageSize +
      min (s.size - m.first * pageSize) (m.pages * pageSize)) ↔
      (x < s.size ∧ m.first ≤ x / pageSize ∧ x / pageSize < m.first + m.pages) := by
    unfold pageSize
    omega
  split
  next hzero =>
    have hzero := hzero.resolve_right (by nofun)
    rw [if_neg]
    omega
  dsimp only
  by_cases hx : x < s.size ∧ m.first ≤ x / pageSize ∧ x / pageSize < m.first + m.pages
  · rw [if_pos (hrange.mpr hx), if_pos hx]
    have hdiv : (x - m.first * pageSize) / pageSize = x / pageSize - m.first := by
      unfold pageSize
      omega
    have hmod : (x - m.first * pageSize) % pageSize = x % pageSize := by
      have := hx.2.1
      unfold pageSize at *
      omega
    rw [hdiv, hmod]
    obtain ⟨e, he, hp, hq, hshown, -⟩ := h.mapped m hm (m.base + (x / pageSize - m.first))
      (x / pageSize) ⟨x / pageSize - m.first, by omega, rfl, by omega⟩
    obtain ⟨c, hc⟩ := Option.ne_none_iff_exists'.mp (h.cached e he _ hshown)
    rw [← hp, ← hq, h.memByte he, hshown, shownByte_file hc]
    unfold State.byteAt
    rw [hc]
  · rw [if_neg (fun hr => hx (hrange.mp hr)), if_neg hx]

lemma State.Inv.flushed (l : List SharedMap) (hl : ∀ m ∈ l, m ∈ s.maps)
    (disk : Bytes) (x : Nat) : (l.foldl (s.flushOne false) disk x = disk x ∨
      l.foldl (s.flushOne false) disk x = s.byteAt x) ∧
    (x < s.size → ∀ m ∈ l, ∀ page, m.Has page (x / pageSize) →
      l.foldl (s.flushOne false) disk x = s.byteAt x) := by
  induction l generalizing disk with
  | nil => exact ⟨.inl rfl, nofun⟩
  | cons m l ih =>
    obtain ⟨heither, hhit⟩ := ih (fun m' hm' => hl m' (mem_cons_of_mem m hm'))
      (s.flushOne false disk m)
    rw [foldl_cons]
    have hone := h.flushOne (hl m mem_cons_self) disk x
    constructor
    · rcases heither with heq | heq
      · rw [heq, hone]
        split
        · exact .inr rfl
        · exact .inl rfl
      · exact .inr heq
    intro hx m' hm' page hhas
    rcases mem_cons.mp hm' with rfl | hm'
    · rcases heither with heq | heq
      · obtain ⟨j, hj, -, hi⟩ := hhas
        rw [heq, hone, if_pos ⟨hx, by omega, by omega⟩]
      · exact heq
    · exact hhit hx m' hm' page hhas

omit h in
lemma gc_cache (s : State) (i : Nat) : s.gc.cache i = s.cache i ∨
    (s.gc.cache i = none ∧ ∀ e ∈ s.gc.ptes, e.shown ≠ .file i) := by
  by_cases hany : s.ptes.any (fun e => e.shown.shows i) = true
  · exact .inl (if_pos hany)
  refine .inr ⟨if_neg hany, fun e he hshown => hany ?_⟩
  exact any_eq_true.mpr ⟨e, he, by rw [hshown]; exact decide_eq_true rfl⟩

lemma State.Inv.inside (hx : s.byteAt x ≠ s.disk x) : x < s.size := by
  by_contra hout
  obtain ⟨h₁, h₂⟩ := h.past x (Nat.le_of_not_lt hout)
  rw [h.view, h₁, h₂] at hx
  exact hx rfl

lemma State.Inv.removed (hit : SharedMap → Bool) (keep : Pte → Bool)
    (hkept : ∀ m ∈ s.maps, hit m = false → ∀ e ∈ s.ptes, ∀ i, e.proc = m.proc →
      m.Has e.page i → keep e = true)
    (hgone : ∀ m ∈ s.maps, hit m = true → ∀ e ∈ s.ptes, ∀ i, e.proc = m.proc →
      m.Has e.page i → keep e = false) :
    (gc { s.flush hit false with ptes := s.ptes.filter keep }).Inv := by
  generalize hs' : gc { s.flush hit false with ptes := s.ptes.filter keep } = s'
  have hptes : ∀ e, e ∈ s'.ptes ↔ e ∈ s.ptes ∧ keep e = true := by
    subst hs'
    exact fun e => mem_filter
  have hmaps : ∀ m, m ∈ s'.maps ↔ m ∈ s.maps ∧ hit m = false := by
    subst hs'
    intro m
    rw [← Bool.not_eq_true']
    exact mem_filter
  have hdisk : ∀ x, s'.disk x = (s.maps.filter hit).foldl (s.flushOne false) s.disk x := by
    subst hs'
    exact fun _ => rfl
  have hcache : ∀ i, s'.cache i = s.cache i ∨
      (s'.cache i = none ∧ ∀ e ∈ s'.ptes, e.shown ≠ .file i) := by
    subst hs'
    exact fun i => gc_cache { s.flush hit false with ptes := s.ptes.filter keep } i
  have hlatest : s'.latest = s.latest := by subst hs'; rfl
  have hsize : s'.size = s.size := by subst hs'; rfl
  obtain hflush := h.flushed (s.maps.filter hit) (fun m hm => (mem_filter.mp hm).1) s.disk
  -- where the file is still behind, a record is left
  have hbehind : ∀ x, s.byteAt x ≠ s'.disk x →
      ∃ m ∈ s'.maps, ∃ page, m.Has page (x / pageSize) := by
    intro x hx
    rw [hdisk] at hx
    have hold := (hflush x).1.resolve_right fun heq => hx heq.symm
    have hdirty : s.byteAt x ≠ s.disk x := hold ▸ hx
    obtain ⟨m, hm, page, hhas⟩ := h.dirty x hdirty
    refine ⟨m, (hmaps m).mpr ⟨hm, ?_⟩, page, hhas⟩
    by_contra hhit
    exact hx ((hflush x).2 (h.inside hdirty) m
      (mem_filter.mpr ⟨hm, by simpa using hhit⟩) page hhas).symm
  have hmapped : ∀ m ∈ s'.maps, ∀ page i, m.Has page i → ∃ e ∈ s'.ptes, e.proc = m.proc ∧
      e.page = page ∧ e.shown = .file i ∧ e.read = true := by
    intro m hm page i hhas
    obtain ⟨hm, hhit⟩ := (hmaps m).mp hm
    obtain ⟨e, he, hp, hq, hrest⟩ := h.mapped m hm page i hhas
    exact ⟨e, (hptes e).mpr ⟨he, hkept m hm hhit e he i hp (hq ▸ hhas)⟩, hp, hq, hrest⟩
  have hbyte : ∀ x, s'.byteAt x = s.byteAt x := by
    intro x
    have huncached : s'.cache (x / pageSize) = none →
        (∀ e ∈ s'.ptes, e.shown ≠ .file (x / pageSize)) → s'.byteAt x = s.byteAt x := by
      intro hnone hno
      have : s'.byteAt x = s'.disk x := by
        unfold byteAt
        rw [hnone]
      rw [this]
      by_contra hne
      obtain ⟨m, hm, page, hhas⟩ := hbehind x fun heq => hne heq.symm
      obtain ⟨e, he, -, -, hshown, -⟩ := hmapped m hm page _ hhas
      exact hno e he hshown
    rcases hcache (x / pageSize) with hsame | ⟨hnone, hno⟩
    · cases hc : s.cache (x / pageSize) with
      | none =>
        rw [hc] at hsame
        exact huncached hsame fun e he hshown =>
          h.cached e ((hptes e).mp he).1 _ hshown hc
      | some c =>
        unfold byteAt
        rw [hsame, hc]
    · exact huncached hnone hno
  refine ⟨fun x => ?_, fun x hx => ?_, fun e he i hi => ?_, fun e he d hd => ?_, fun m hm => ?_,
    hmapped, fun e he i hi hw => ?_, fun x hx => hbehind x (hbyte x ▸ hx)⟩
  · rw [hbyte, hlatest, h.view]
  · rw [hsize] at hx
    rw [hlatest, hdisk]
    obtain ⟨h1, h2⟩ := h.past x hx
    refine ⟨h1, ?_⟩
    rcases (hflush x).1 with heq | heq
    · rw [heq, h2]
    · rw [heq, h.view, h1]
  · rcases hcache i with hsame | ⟨-, hno⟩
    · rw [hsame]
      exact h.cached e ((hptes e).mp he).1 i hi
    · exact absurd hi (hno e he)
  · exact h.uniq e ((hptes e).mp he).1 d ((hptes d).mp hd).1
  · exact h.nonempty m ((hmaps m).mp hm).1
  obtain ⟨he, hkeep⟩ := (hptes e).mp he
  obtain ⟨m, hm, hp, hhas⟩ := h.written e he i hi hw
  refine ⟨m, (hmaps m).mpr ⟨hm, ?_⟩, hp, hhas⟩
  by_contra hhit
  rw [hgone m hm (by simpa using hhit) e he i hp.symm hhas] at hkeep
  cases hkeep

lemma State.Inv.munmap (hwhole : ∀ m ∈ s.maps, m.overlaps proc page n = true →
    page ≤ m.base ∧ m.base + m.pages ≤ page + n) : (s.munmap proc page n false).Inv := by
  unfold State.munmap
  split
  · exact h
  refine h.removed (·.overlaps proc page n) (fun e => !e.within proc page n)
    (fun m hm hno e he i hp hhas => ?_) (fun m hm hover e he i hp hhas => ?_)
  · by_contra hw
    have hover := overlaps_of_within hp hhas (by simpa using hw)
    rw [hno] at hover
    cases hover
  have hin := hwhole m hm hover
  simp only [SharedMap.overlaps, Bool.and_eq_true, decide_eq_true_eq] at hover
  obtain ⟨j, hj, hpage, -⟩ := hhas
  simp only [Bool.not_eq_false', Pte.within, Bool.and_eq_true, decide_eq_true_eq]
  refine ⟨⟨hp.trans hover.1.1, ?_⟩, ?_⟩ <;> omega

lemma State.Inv.teardown : (s.teardown proc false).Inv := by
  refine h.removed (fun m => m.proc = proc) (fun e => e.proc ≠ proc)
    (fun m hm hno e he i hp _ => ?_) (fun m hm hhit e he i hp _ => ?_)
  · rw [decide_eq_false_iff_not] at hno
    exact decide_eq_true (hp ▸ hno)
  · rw [decide_eq_true_eq] at hhit
    exact decide_eq_false (not_not.mpr (hp.trans hhit))

/-! ### Mappings that are copied and moved -/

lemma State.Inv.fork {parent child : Nat} (hp : ∀ e ∈ s.ptes, e.proc ≠ child) :
    (s.fork parent child).Inv := by
  refine h.addPtes (fun e he d hd hsame => ?_) (fun e he d hd _ hq => ?_) (fun e he i hi => ?_)
    (fun m hm => mem_append_left _ hm) (fun m hmem hnew => ?_) (fun e he i hi hw => ?_)
  · obtain ⟨d', -, rfl⟩ := mem_map.mp hd
    exact hp e he hsame.1
  · obtain ⟨e', he', rfl⟩ := mem_map.mp he
    obtain ⟨d', hd', rfl⟩ := mem_map.mp hd
    obtain ⟨he', hpe⟩ := mem_filter.mp he'
    obtain ⟨hd', hpd⟩ := mem_filter.mp hd'
    rw [decide_eq_true_eq] at hpe hpd
    rw [h.uniq e' he' d' hd' (hpe.trans hpd.symm) hq]
  · obtain ⟨e', he', rfl⟩ := mem_map.mp he
    exact h.cached e' (mem_filter.mp he').1 i hi
  · rcases mem_append.mp hmem with hold | hmem
    · exact absurd hold hnew
    obtain ⟨m', hm', rfl⟩ := mem_map.mp hmem
    obtain ⟨hm', hpm⟩ := mem_filter.mp hm'
    rw [decide_eq_true_eq] at hpm
    refine ⟨h.nonempty m' hm', fun pg i hhas => ?_⟩
    obtain ⟨e, he, hpe, hrest⟩ := h.mapped m' hm' pg i hhas
    refine ⟨{ e with proc := child }, mem_map.mpr ⟨e, mem_filter.mpr ⟨he, ?_⟩, rfl⟩, rfl, hrest⟩
    exact decide_eq_true (hpe.trans hpm)
  obtain ⟨e', he', rfl⟩ := mem_map.mp he
  obtain ⟨he', hpe⟩ := mem_filter.mp he'
  rw [decide_eq_true_eq] at hpe
  obtain ⟨m, hm, hpm, hhas⟩ := h.written e' he' i hi hw
  refine ⟨{ m with proc := child }, mem_append_right _ (mem_map.mpr ⟨m,
    mem_filter.mpr ⟨hm, decide_eq_true (hpm.trans hpe)⟩, rfl⟩), rfl, hhas⟩

end

/-- A mapping of the file is moved as a whole to where nothing is. -/
structure State.MovesWhole (s : State) (proc old n new : Nat) : Prop where
  free : ∀ e ∈ s.ptes, e.within proc new n = false
  whole : ∀ m ∈ s.maps, m.proc = proc → m.overlaps proc old n = true ∨ m.base = old →
    m.base = old ∧ m.pages = n
  alike : (∀ e ∈ s.ptes, e.within proc old n = true → e.shown.isFile = true) ∨
    ∀ e ∈ s.ptes, e.within proc old n = true → e.shown.isFile = false

lemma State.MovesWhole.of_has {old new : Nat} (hw : s.MovesWhole proc old n new)
    (hm : m ∈ s.maps) (hp : e.proc = m.proc) (hhas : m.Has e.page i)
    (he : e.within proc old n = true) : m.proc = proc ∧ m.base = old ∧ m.pages = n := by
  have hpm := hp.symm.trans (within_iff.mp he).1
  exact ⟨hpm, hw.whole m hm hpm (.inl (overlaps_of_within hp hhas he))⟩

section Move

variable {old new : Nat}

def State.movedPte (s : State) (proc old n new : Nat) (e : Pte) : Pte :=
  { e with
    page := new + (e.page - old)
    shown := if (s.ptes.filter fun e => e.within proc old n).all fun e => e.shown.isFile then
      e.shown else .own fun o => s.shownByte o e.shown }

/-- A record after `moveTo`. -/
def SharedMap.moved (proc old n new : Nat) (m : SharedMap) : SharedMap :=
  if m.proc = proc && m.base = old then { m with base := new, pages := min m.pages n } else m

lemma movedPte_file (h : (s.movedPte proc old n new e).shown = .file i) : e.shown = .file i := by
  dsimp only [movedPte] at h
  split at h
  · exact h
  · cases h

variable (hw : s.MovesWhole proc old n new)
include hw

lemma State.MovesWhole.mem_moveTo :
    e ∈ (s.moveTo proc old n new n).ptes ↔ (e ∈ s.ptes ∧ e.within proc old n = false) ∨
      ∃ d ∈ s.ptes, d.within proc old n = true ∧ s.movedPte proc old n new d = e := by
  have hptes : (s.moveTo proc old n new n).ptes =
      ((s.unmapRange proc new n).unmapRange proc old n).ptes ++
        (s.ptes.filter fun e => e.within proc old n).map (s.movedPte proc old n new) := rfl
  rw [hptes, mem_append]
  refine or_congr ⟨fun he => ?_, fun ⟨he, hout⟩ => ?_⟩ ?_
  · obtain ⟨he, hout⟩ := mem_unmapRange he
    exact ⟨(mem_unmapRange he).1, hout⟩
  · refine mem_filter.mpr ⟨mem_filter.mpr ⟨he, ?_⟩, ?_⟩
    · rw [hw.free e he]
      rfl
    · rw [hout]
      rfl
  · simp only [mem_map, mem_filter, and_assoc]

lemma State.MovesWhole.shown (he : e ∈ s.ptes) (hin : e.within proc old n = true)
    (hi : e.shown = .file i) : (s.movedPte proc old n new e).shown = .file i := by
  refine (if_pos ?_).trans hi
  rcases hw.alike with hall | hnone
  · exact all_eq_true.mpr fun d hd =>
      hall d (mem_filter.mp hd).1 (mem_filter.mp hd).2
  have := hnone e he hin
  rw [hi] at this
  cases this

lemma State.MovesWhole.lands (he : e ∈ s.ptes) (hd : d.within proc old n = true)
    (hp : e.proc = d.proc) : e.page ≠ new + (d.page - old) := by
  obtain ⟨hpd, hlo, hhi⟩ := within_iff.mp hd
  have := not_within (hw.free e he) (hp.trans hpd)
  omega

lemma State.MovesWhole.moved (hm : m ∈ s.maps) :
    (¬(m.proc = proc ∧ m.base = old) ∧ m.moved proc old n new = m) ∨
      m.proc = proc ∧ m.base = old ∧ m.pages = n ∧
        m.moved proc old n new = { m with base := new } := by
  unfold SharedMap.moved
  by_cases hthe : m.proc = proc ∧ m.base = old
  · have hpages := (hw.whole m hm hthe.1 (.inr hthe.2)).2
    refine .inr ⟨hthe.1, hthe.2, hpages, ?_⟩
    rw [if_pos (by simpa using hthe), hpages, Nat.min_self, ← hpages]
  · exact .inl ⟨hthe, if_neg (by simpa using hthe)⟩

lemma State.MovesWhole.moved_keeps (hm : m ∈ s.maps) :
    (m.moved proc old n new).pages = m.pages ∧ (m.moved proc old n new).first = m.first := by
  rcases hw.moved hm with ⟨-, heq⟩ | ⟨-, -, -, heq⟩
  · rw [heq]
    exact ⟨rfl, rfl⟩
  · rw [heq]
    exact ⟨rfl, rfl⟩

lemma State.Inv.moveTo (h : s.Inv) : (s.moveTo proc old n new n).Inv := by
  have hmaps : ∀ m', m' ∈ (s.moveTo proc old n new n).maps ↔
      ∃ m ∈ s.maps, m.moved proc old n new = m' := fun _ => mem_map
  refine ⟨h.view, h.past, fun e' he' i hi => ?_, fun e' he' d' hd' hp hq => ?_, fun m' hm' => ?_,
    fun m' hm' pg i hhas => ?_, fun e' he' i hi hwr => ?_, fun x hx => ?_⟩
  · rcases hw.mem_moveTo.mp he' with ⟨he, -⟩ | ⟨e, he, -, rfl⟩
    · exact h.cached e' he i hi
    · exact h.cached e he i (movedPte_file hi)
  · rcases hw.mem_moveTo.mp he' with ⟨he, -⟩ | ⟨e, he, hein, rfl⟩ <;>
      rcases hw.mem_moveTo.mp hd' with ⟨hd, -⟩ | ⟨d, hd, hdin, rfl⟩
    · exact h.uniq e' he d' hd hp hq
    · exact absurd hq (hw.lands he hdin hp)
    · exact absurd hq.symm (hw.lands hd hein hp.symm)
    have hein := within_iff.mp hein
    have hdin := within_iff.mp hdin
    have hq : new + (e.page - old) = new + (d.page - old) := hq
    rw [h.uniq e he d hd hp (by omega)]
  · obtain ⟨m, hm, rfl⟩ := (hmaps m').mp hm'
    rw [(hw.moved_keeps hm).1]
    exact h.nonempty m hm
  · obtain ⟨m, hm, rfl⟩ := (hmaps m').mp hm'
    rcases hw.moved hm with ⟨hne, heq⟩ | ⟨hmp, hmb, hpages, heq⟩
    · rw [heq] at hhas ⊢
      obtain ⟨e, he, hp, hq, hrest⟩ := h.mapped m hm pg i hhas
      refine ⟨e, hw.mem_moveTo.mpr (.inl ⟨he, ?_⟩), hp, hq, hrest⟩
      by_contra hin
      have hthe := hw.of_has hm hp (hq ▸ hhas) (by simpa using hin)
      exact hne ⟨hthe.1, hthe.2.1⟩
    rw [heq] at hhas ⊢
    obtain ⟨j, hj, rfl, rfl⟩ := hhas
    have hj : j < m.pages := hj
    obtain ⟨e, he, hp, hq, hsh, hr⟩ := h.mapped m hm _ _ ⟨j, hj, rfl, rfl⟩
    have hin : e.within proc old n = true := within_iff.mpr
      ⟨hp.trans hmp, by omega, by omega⟩
    refine ⟨_, hw.mem_moveTo.mpr (.inr ⟨e, he, hin, rfl⟩), hp, ?_, hw.shown he hin hsh, hr⟩
    show new + (e.page - old) = new + j
    omega
  · rcases hw.mem_moveTo.mp he' with ⟨he, hout⟩ | ⟨e, he, hin, rfl⟩
    · obtain ⟨m, hm, hp, j, hj, hpj, hij⟩ := h.written e' he i hi hwr
      rcases hw.moved hm with ⟨-, heq⟩ | ⟨hmp, hmb, hpages, -⟩
      · exact ⟨m, (hmaps m).mpr ⟨m, hm, heq⟩, hp, j, hj, hpj, hij⟩
      have := not_within hout (hp.symm.trans hmp)
      omega
    obtain ⟨m, hm, hp, hhas⟩ := h.written e he i (movedPte_file hi) hwr
    obtain ⟨hmp, hmb, -⟩ := hw.of_has hm hp.symm hhas hin
    rcases hw.moved hm with ⟨hne, -⟩ | ⟨-, -, -, heq⟩
    · exact absurd ⟨hmp, hmb⟩ hne
    obtain ⟨j, hj, hpj, hij⟩ := hhas
    refine ⟨_, (hmaps _).mpr ⟨m, hm, heq⟩, hp, j, hj, ?_, hij⟩
    show new + (e.page - old) = new + j
    omega
  · obtain ⟨m, hm, -, j, hj, -, hij⟩ := h.dirty x hx
    obtain ⟨hpages, hfirst⟩ := hw.moved_keeps hm
    exact ⟨_, (hmaps _).mpr ⟨m, hm, rfl⟩, _, j, hpages ▸ hj, rfl, hfirst ▸ hij⟩

end Move

/-! ### Runs -/

/-- Stores are inside the file; a mapping is where nothing is and gets all frames or none; a call
that fails has mapped no page; what can be written can be read; records are unmapped whole and
written back; nothing is put over them or resized. -/
def State.Tidy (s : State) : Op → Prop
  | .write _ _ | .truncate _ => True
  | .store proc page o _ => ∀ e i, s.pteAt proc page = some e → e.shown = .file i →
      i * pageSize + o < s.size
  | .mmap proc base first n read write avail mapped =>
      (∀ e ∈ s.ptes, e.within proc base n = false) ∧
      (avail = 0 ∨ (s.missing first n).length ≤ avail) ∧ (write = true → read = true) ∧
      ∀ k, mapped = .upTo k → k = 0
  | .munmap proc page n refused => refused = false ∧ ∀ m ∈ s.maps,
      m.overlaps proc page n = true → page ≤ m.base ∧ m.base + m.pages ≤ page + n
  | .teardown _ refused => refused = false
  | .replace proc page n _ _ => ∀ m ∈ s.maps, m.overlaps proc page n = false
  | .fork _ child => ∀ e ∈ s.ptes, e.proc ≠ child
  | .mremap proc old oldN newN new _ _ =>
    match new with
    | none =>
      if newN ≤ oldN then ∀ m ∈ s.maps, m.overlaps proc (old + newN) (oldN - newN) = false
      else (∀ m ∈ s.maps, m.overlaps proc (old + oldN) (newN - oldN) = false) ∧
        ∀ e ∈ s.ptes, e.within proc old oldN = true → e.shown.isFile = false
    | some new => newN = oldN ∧ s.MovesWhole proc old oldN new
  | .mremapFails proc _ n new mapped _ => mapped = .refused ∨
      mapped = .upTo 0 ∧ ∀ e ∈ s.ptes, e.within proc new n = false

lemma unmapRange_zero : s.unmapRange proc page 0 = s := by
  have hnone : ∀ e ∈ s.ptes, (!e.within proc page 0) = true := by
    intro e _
    by_contra hw
    have := within_iff.mp (by simpa using hw : e.within proc page 0 = true)
    omega
  unfold unmapRange
  rw [filter_eq_self.mpr hnone]

lemma replace_zero {read write : Bool} : s.replace proc page 0 read write = s := by
  unfold State.replace
  rw [unmapRange_zero]
  simp

lemma mremapFailed_eq {old new tail : Nat} {mapped : Mapped}
    (ht : s.Tidy (.mremapFails proc old n new mapped tail)) :
    s.mremapFailed proc old n new mapped tail = s := by
  unfold mremapFailed
  dsimp only
  split
  · rfl
  rcases ht with rfl | ⟨rfl, hfree⟩
  · rfl
  dsimp only
  rw [zero_add, State.unmapRange_first hfree, Nat.zero_min]
  have hnone : (s.ptes.filter fun e => e.within proc old n).filter
      (fun e => decide (e.page < old + 0)) = [] := by
    refine filter_eq_nil_iff.mpr fun e he hlt => ?_
    have hin := within_iff.mp (mem_filter.mp he).2
    have hlt := of_decide_eq_true hlt
    omega
  rw [hnone, map_nil, append_nil]

lemma State.step_inv {op : Op} (h : s.Inv) (ht : s.Tidy op) (hs : s.step op = some s') :
    s'.Inv := by
  cases op with
  | write off data =>
    cases hs
    exact h.vfsWrite off data
  | truncate len =>
    cases hs
    exact h.vfsTruncate len
  | store proc page o v =>
    obtain ⟨ho, hs⟩ := Option.ite_none_right_eq_some.mp hs
    exact h.store ho ht hs
  | mmap proc base first n read write avail mapped =>
    cases hs
    exact h.mmapShared ht.1 ht.2.1 ht.2.2.1 ht.2.2.2
  | munmap proc page n refused =>
    cases hs
    rw [ht.1]
    exact h.munmap ht.2
  | teardown proc refused =>
    cases hs
    rw [show refused = false from ht]
    exact h.teardown
  | replace proc page n read write =>
    cases hs
    exact h.replace ht
  | fork parent child =>
    cases hs
    exact h.fork ht
  | mremap proc old oldN newN new read write =>
    cases hs
    unfold mremap
    cases new with
    | none =>
      simp only [State.Tidy] at ht
      dsimp only
      split
      next hle =>
        rw [if_pos hle] at ht
        exact h.unmapRange ht
      rename_i hle
      rw [if_neg hle] at ht
      exact h.replace ht.1
    | some new =>
      obtain ⟨rfl, hw⟩ := ht
      dsimp only
      rw [Nat.min_self, Nat.sub_self, unmapRange_zero, replace_zero]
      exact h.moveTo hw
  | mremapFails proc old n new mapped tail =>
    cases hs
    rw [mremapFailed_eq ht]
    exact h

lemma State.Reach.inv {size : Nat} {data : Bytes}
    (h : Run.Reach step State.Tidy (init size data) s) : s.Inv := by
  refine Run.Reach.invariant (P := State.Inv) h ?_ fun _ _ _ hi ht hs => step_inv hi ht hs
  refine ⟨fun _ => rfl, fun x hx => ?_, nofun, nofun, nofun, nofun, nofun, fun _ hx => absurd rfl hx⟩
  have hx' : ¬x < size := not_lt.mpr hx
  exact ⟨if_neg hx', if_neg hx'⟩

end NixVm.PageCache
