/-
What the nodes of the cgroup tree count.

`Counted` is the invariant: a node other than the root counts the members in its subtree, and those
that have not been marked as exited. `Sys.Inv` adds that the members are tasks: that is what a fork
breaks that fails after the new task was charged.
-/
import NixVm.Kernel.Cgroup

namespace NixVm.Assoc

open List Option

variable {α β : Type} [DecidableEq α] {m : Assoc α β}

variable {w : α → β → Nat}

/-! ### Sums over the members -/

lemma weight_congr {w' : α → β → Nat} (h : ∀ a b, m.lookup a = some b → w a b = w' a b) :
    weight w m = weight w' m := by
  refine congrArg List.sum (map_congr_left fun e he => ?_)
  exact h e.1 e.2 (AList.mem_lookup_iff.mpr he)

lemma weight_erase_none {a : α} (h : m.lookup a = none) : weight w (m.erase a) = weight w m := by
  have hmem : a ∉ m.entries.keys := by
    intro hc
    have : (m.lookup a).isSome := AList.lookup_isSome.mpr hc
    rw [h] at this
    cases this
  show (List.map _ (m.entries.kerase a)).sum = _
  rw [kerase_of_notMem_keys hmem]
  rfl

lemma eq_zero_of_weight (h : weight w m = 0) {a : α} {b : β}
    (hb : m.lookup a = some b) : w a b = 0 := by
  have := le_weight w hb
  omega

end Assoc

namespace Cgroup

open Assoc

namespace Tree

variable {t t' : Tree}

/-! ### Chains -/

/-- Parents have lower ids, so that chains end. -/
def Down (t : Tree) : Prop := ∀ id p, t.parentOf id = some p → p < id

/-- Fuel above its id is enough for a chain. -/
lemma chainFrom_stable (h : t.Down) : ∀ (id fuel : Nat), id < fuel →
    t.chainFrom fuel id = t.chain id := by
  intro id
  induction id using Nat.strong_induction_on with
  | _ id ih =>
    intro fuel hf
    obtain ⟨f, rfl⟩ : ∃ f, fuel = f + 1 := ⟨fuel - 1, by omega⟩
    unfold chain
    cases hp : t.parentOf id with
    | none => simp only [chainFrom, hp]
    | some p =>
      have hlt := h id p hp
      simp only [chainFrom, hp]
      rw [ih p hlt f (by omega), ih p hlt id hlt]

variable {id tid : Nat}

lemma chain_top (hp : t.parentOf id = none) : t.chain id = [id] := by
  simp only [chain, chainFrom, hp]

lemma chain_below (h : t.Down) {p : Nat} (hp : t.parentOf id = some p) :
    t.chain id = id :: t.chain p := by
  have : t.chain id = id :: t.chainFrom id p := by simp only [chain, chainFrom, hp]
  rw [this, chainFrom_stable h p id (h id p hp)]

lemma self_mem_chain (h : t.Down) (id : Nat) : id ∈ t.chain id := by
  cases hp : t.parentOf id with
  | none =>
    rw [chain_top hp]
    exact List.mem_singleton_self id
  | some p =>
    rw [chain_below h hp]
    exact List.mem_cons_self

lemma le_of_mem_chain (h : t.Down) : ∀ (id : Nat) {k : Nat}, k ∈ t.chain id → k ≤ id := by
  intro id
  induction id using Nat.strong_induction_on with
  | _ id ih =>
    intro k hk
    cases hp : t.parentOf id with
    | none =>
      rw [chain_top hp] at hk
      exact (List.mem_singleton.mp hk).le
    | some p =>
      rw [chain_below h hp] at hk
      rcases List.mem_cons.mp hk with rfl | hk
      · exact le_refl _
      · exact (ih p (h id p hp) hk).trans (h id p hp).le

lemma nodup_chain (h : t.Down) : ∀ id, (t.chain id).Nodup := by
  intro id
  induction id using Nat.strong_induction_on with
  | _ id ih =>
    cases hp : t.parentOf id with
    | none =>
      rw [chain_top hp]
      exact List.nodup_singleton id
    | some p =>
      rw [chain_below h hp]
      refine List.nodup_cons.mpr ⟨fun hc => ?_, ih p (h id p hp)⟩
      have := le_of_mem_chain h p hc
      have := h id p hp
      omega

/-- A chain depends on the parents along it only. -/
lemma chain_congr (h : t.Down) : ∀ (id : Nat), (∀ k ∈ t.chain id, t'.parentOf k = t.parentOf k) →
    t'.Down → t'.chain id = t.chain id := by
  intro id
  induction id using Nat.strong_induction_on with
  | _ id ih =>
    intro hk h'
    have hself := hk id (self_mem_chain h id)
    cases hp : t.parentOf id with
    | none => rw [chain_top hp, chain_top (hself.trans hp)]
    | some p =>
      rw [chain_below h hp] at hk
      rw [chain_below h hp, chain_below h' (hself.trans hp),
        ih p (h id p hp) (fun k hkp => hk k (List.mem_cons_of_mem _ hkp)) h']

/-! ### Charging a chain -/

/-- What a charge does to one node. -/
def bump (a b : Int) (n : Node) : Node :=
  { n with tasks := (n.tasks + a).toNat, live := (n.live + b).toNat }

lemma charge_members (l : List Nat) (a b : Int) : ∀ t : Tree,
    (t.charge l a b).members = t.members ∧ (t.charge l a b).nextId = t.nextId := by
  induction l with
  | nil => exact fun _ => ⟨rfl, rfl⟩
  | cons k l ih => exact fun t => ih _

lemma charge_setMembers (ms : Assoc Nat Member) (a b : Int) (l : List Nat) : ∀ t : Tree,
    { t.charge l a b with members := ms } = { t with members := ms }.charge l a b := by
  induction l with
  | nil => exact fun _ => rfl
  | cons k l ih => exact fun t => ih _

/-- Charging a list without repetition bumps each of its nodes once. -/
lemma charge_nodes (a b : Int) : ∀ (l : List Nat) (t : Tree) (id : Nat), l.Nodup →
    (t.charge l a b).nodes id = if id ∈ l then (t.nodes id).map (bump a b) else t.nodes id := by
  intro l
  induction l with
  | nil =>
    intro t id _
    simp [charge]
  | cons k l ih =>
    intro t id hl
    obtain ⟨hk, hl⟩ := List.nodup_cons.mp hl
    have hcons : t.charge (k :: l) a b = (t.modify k (bump a b)).charge l a b := rfl
    rw [hcons, ih _ id hl]
    by_cases hid : id = k
    · subst hid
      simp [hk, modify, setNode]
    · simp [hid, modify, setNode]

/-! ### The invariant of the tree -/

/-- The nodes are a tree in which a node is listed by its parent, and every member is in a node. -/
structure Shape (t : Tree) : Prop where
  top : ∃ n, t.nodes root = some n ∧ n.parent = none
  lt : ∀ id n, t.nodes id = some n → id < t.nextId
  parent : ∀ id n p, t.nodes id = some n → n.parent = some p →
    p < id ∧ ∃ q, t.nodes p = some q ∧ q.children.lookup n.name = some id
  members : ∀ tid m, t.members.lookup tid = some m → ∃ n, t.nodes m.node = some n

lemma Shape.down (h : t.Shape) : t.Down := by
  intro id p hp
  obtain ⟨n, hn, hp⟩ := Option.bind_eq_some_iff.mp hp
  exact (h.parent id n p hn hp).1

lemma Shape.chain_root (h : t.Shape) : t.chain root = [root] := by
  obtain ⟨n, hn, hp⟩ := h.top
  refine chain_top ?_
  rw [parentOf, hn]
  exact hp

lemma Shape.not_mem_root (h : t.Shape) (hid : id ≠ root) : id ∉ t.chain root := by
  rw [h.chain_root]
  simpa using hid

/-- A member counts for every node on the chain of its own. -/
def inside (t : Tree) (id : Nat) (_ : Nat) (m : Member) : Nat := if id ∈ t.chain m.node then 1 else 0

/-- And as alive as long as it is not marked as exited. -/
def alive (t : Tree) (id : Nat) (_ : Nat) (m : Member) : Nat :=
  if m.live ∧ id ∈ t.chain m.node then 1 else 0

/-- Every node but the root counts the members in its subtree, and those of them that are alive. -/
def Counted (t : Tree) : Prop := ∀ id n, t.nodes id = some n → id ≠ root →
  n.tasks = weight (t.inside id) t.members ∧ n.live = weight (t.alive id) t.members

structure Inv (t : Tree) : Prop where
  shape : t.Shape
  counted : t.Counted

/-- What is left of `t` when some nodes go and others come. -/
structure Keeps (t t' : Tree) (gone : Nat → Prop) : Prop where
  back : ∀ {k : Nat} {m' : Node}, t'.nodes k = some m' → k < t.nextId →
    ¬gone k ∧ ∃ m, t.nodes k = some m ∧ m'.name = m.name ∧ m'.parent = m.parent
  stay : ∀ {k : Nat} {m : Node}, t.nodes k = some m → ¬gone k → ∃ m', t'.nodes k = some m' ∧
    m'.parent = m.parent ∧ ∀ nm x, m.children.lookup nm = some x → ¬gone x →
      m'.children.lookup nm = some x
  leaf : ∀ {k p : Nat}, t.parentOf k = some p → ¬gone p
  le : t.nextId ≤ t'.nextId

variable {gone : Nat → Prop}

section

variable (hk : Keeps t t' gone)
include hk

/-- New nodes must be listed by their parent, and members must be in nodes that stay. -/
lemma Keeps.shape (h : t.Shape) (hroot : ¬gone root)
    (hnew : ∀ k m', t'.nodes k = some m' → ¬k < t.nextId → k < t'.nextId ∧
      ∀ p, m'.parent = some p → p < k ∧ ∃ q, t'.nodes p = some q ∧
        q.children.lookup m'.name = some k) (hm : ∀ tid m, t'.members.lookup tid = some m →
      (∃ n, t.nodes m.node = some n) ∧ ¬gone m.node) : t'.Shape where
  top := by
    obtain ⟨n, hn, hp⟩ := h.top
    obtain ⟨n', hn', hp', -⟩ := hk.stay hn hroot
    exact ⟨n', hn', hp'.trans hp⟩
  lt k m' hm' := by
    by_cases hlt : k < t.nextId
    · exact hlt.trans_le hk.le
    · exact (hnew k m' hm' hlt).1
  parent k m' p hm' hp := by
    by_cases hlt : k < t.nextId
    · have ⟨hg, m, hm, hname, hpar⟩ := hk.back hm' hlt
      rw [hpar] at hp
      have ⟨hpk, q, hq, hl⟩ := h.parent k m p hm hp
      obtain ⟨q', hq', -, hch⟩ := hk.stay hq (hk.leaf (by rw [parentOf, hm]; exact hp))
      exact ⟨hpk, q', hq', by rw [hname]; exact hch _ _ hl hg⟩
    · exact (hnew k m' hm' hlt).2 p hp
  members tid m hl := by
    have ⟨⟨n, hn⟩, hg⟩ := hm tid m hl
    obtain ⟨n', hn', -⟩ := hk.stay hn hg
    exact ⟨n', hn'⟩

lemma Keeps.parentOf {k : Nat} (hlt : k < t.nextId) (hg : ¬gone k) :
    t'.parentOf k = t.parentOf k := by
  unfold Tree.parentOf
  cases hm : t.nodes k with
  | some m =>
    obtain ⟨m', hm', hp, -⟩ := hk.stay hm hg
    rw [hm']
    exact hp
  | none =>
    cases hm' : t'.nodes k with
    | none => rfl
    | some m' =>
      obtain ⟨-, m, hm'', -⟩ := hk.back hm' hlt
      rw [hm] at hm''
      cases hm''

/-- The chain of a node that stays is as before. -/
lemma Keeps.chain (h : t.Shape) (h' : t'.Shape) {k : Nat}
    (hlt : k < t.nextId) (hg : ¬gone k) : t'.chain k = t.chain k := by
  have hstay : ∀ k, ¬gone k → ∀ j ∈ t.chain k, ¬gone j := by
    intro k
    induction k using Nat.strong_induction_on with
    | _ k ih =>
      intro hg j hj
      cases hp : t.parentOf k with
      | none =>
        rw [chain_top hp] at hj
        exact List.mem_singleton.mp hj ▸ hg
      | some p =>
        rw [chain_below h.down hp] at hj
        rcases List.mem_cons.mp hj with rfl | hj
        · exact hg
        · exact ih p (h.down k p hp) (hk.leaf hp) j hj
  exact chain_congr h.down k (fun j hj => hk.parentOf
    ((le_of_mem_chain h.down k hj).trans_lt hlt) (hstay k hg j hj)) h'.down

lemma Keeps.inv (h : t.Shape) (hroot : ¬gone root)
    (hnew : ∀ k m', t'.nodes k = some m' → ¬k < t.nextId → k < t'.nextId ∧
      ∀ p, m'.parent = some p → p < k ∧ ∃ q, t'.nodes p = some q ∧
        q.children.lookup m'.name = some k) (hm : ∀ tid m, t'.members.lookup tid = some m →
      (∃ n, t.nodes m.node = some n) ∧ ¬gone m.node)
    (hcount : ∀ id n, t'.nodes id = some n → id ≠ root →
      n.tasks = weight (t.inside id) t'.members ∧ n.live = weight (t.alive id) t'.members) :
    t'.Inv := by
  have hshape := hk.shape h hroot hnew hm
  have hchain : ∀ tid m, t'.members.lookup tid = some m → t'.chain m.node = t.chain m.node := by
    intro tid m hl
    have ⟨⟨n, hn⟩, hg⟩ := hm tid m hl
    exact hk.chain h hshape (h.lt _ n hn) hg
  refine ⟨hshape, fun id n hn hid => ?_⟩
  have ⟨h1, h2⟩ := hcount id n hn hid
  refine ⟨h1.trans (weight_congr fun tid m hl => ?_), h2.trans (weight_congr fun tid m hl => ?_)⟩
  · simp only [inside, hchain tid m hl]
  · simp only [alive, hchain tid m hl]

end

/-- `t'` is `t` with the chain of `k` bumped, whatever became of the members. -/
structure Charged (t t' : Tree) (k : Nat) (a b : Int) : Prop where
  nodes : ∀ id, t'.nodes id = if id ∈ t.chain k then (t.nodes id).map (bump a b) else t.nodes id
  nextId : t'.nextId = t.nextId

variable {k : Nat} {a b : Int}

section

variable (hc : Charged t t' k a b)
include hc

lemma Charged.of_some {n : Node} (hn : t'.nodes id = some n) :
    ∃ m, t.nodes id = some m ∧ n = if id ∈ t.chain k then bump a b m else m := by
  rw [hc.nodes] at hn
  split at hn
  · next h =>
    obtain ⟨m, hm, rfl⟩ := Option.map_eq_some_iff.mp hn
    exact ⟨m, hm, (if_pos h).symm⟩
  · next h => exact ⟨n, hn, (if_neg h).symm⟩

lemma Charged.to_some {m : Node} (hm : t.nodes id = some m) :
    ∃ n, t'.nodes id = some n ∧ n.parent = m.parent ∧ n.children = m.children := by
  rw [hc.nodes]
  split
  · exact ⟨bump a b m, by rw [hm]; rfl, rfl, rfl⟩
  · exact ⟨m, hm, rfl, rfl⟩

lemma Charged.keeps : Keeps t t' fun _ => False where
  back hn _ := by
    obtain ⟨m, hm, rfl⟩ := hc.of_some hn
    refine ⟨not_false, m, hm, ?_⟩
    split <;> exact ⟨rfl, rfl⟩
  stay hm _ := by
    have ⟨n, hn, hp, hch⟩ := hc.to_some hm
    exact ⟨n, hn, hp, fun _ _ hx _ => hch ▸ hx⟩
  leaf _ := not_false
  le := hc.nextId.ge

/-- The counts stay right if the members change by what was charged. -/
lemma Charged.inv (h : t.Inv)
    (hm : ∀ tid m, t'.members.lookup tid = some m → ∃ n, t.nodes m.node = some n)
    (ht : ∀ id, id ≠ root → (weight (t.inside id) t'.members : Int) =
      weight (t.inside id) t.members + if id ∈ t.chain k then a else 0)
    (hl : ∀ id, id ≠ root → (weight (t.alive id) t'.members : Int) =
      weight (t.alive id) t.members + if id ∈ t.chain k then b else 0) : t'.Inv := by
  refine hc.keeps.inv h.shape not_false (fun j m' hm' hge => ?_)
    (fun tid m hm' => ⟨hm tid m hm', not_false⟩) fun id n hn hid => ?_
  · obtain ⟨m, hm, -⟩ := hc.of_some hm'
    exact absurd (h.shape.lt j m hm) hge
  obtain ⟨m, hm, rfl⟩ := hc.of_some hn
  have ⟨h1, h2⟩ := h.counted id m hm hid
  have ht := ht id hid
  have hl := hl id hid
  split
  · next hmem =>
    rw [if_pos hmem] at ht hl
    simp only [bump]
    omega
  · next hmem =>
    rw [if_neg hmem] at ht hl
    omega

end

lemma charged_setMembers (h : t.Shape) (ms : Assoc Nat Member) (k : Nat) (a b : Int) :
    Charged t ({ t with members := ms }.charge (t.chain k) a b) k a b where
  nodes id := charge_nodes a b _ _ id (nodup_chain h.down k)
  nextId := (charge_members _ a b _).2

/-- The form used by the operations: members are exchanged and one chain is charged. -/
lemma Inv.recharge (h : t.Inv) {ms : Assoc Nat Member}
    (hm : ∀ tid m, ms.lookup tid = some m → ∃ n, t.nodes m.node = some n)
    (ht : ∀ id, id ≠ root → (weight (t.inside id) ms : Int) =
      weight (t.inside id) t.members + if id ∈ t.chain k then a else 0)
    (hl : ∀ id, id ≠ root → (weight (t.alive id) ms : Int) =
      weight (t.alive id) t.members + if id ∈ t.chain k then b else 0) :
    ({ t with members := ms }.charge (t.chain k) a b).Inv := by
  have hms := (charge_members (t.chain k) a b { t with members := ms }).1
  refine (charged_setMembers h.shape ms k a b).inv h ?_ ?_ ?_
  · rwa [hms]
  · rwa [hms]
  · rwa [hms]

lemma setMembers_chain (ms : Assoc Nat Member) (k : Nat) :
    { t with members := ms }.chain k = t.chain k := by
  have hp : ∀ j, { t with members := ms }.parentOf j = t.parentOf j := fun _ => rfl
  have : ∀ fuel id, { t with members := ms }.chainFrom fuel id = t.chainFrom fuel id := by
    intro fuel
    induction fuel with
    | zero => exact fun _ => rfl
    | succ fuel ih =>
      intro id
      simp only [chainFrom, hp]
      split
      · rfl
      · rw [ih]
  exact this ..

/-! ### The operations -/

/-- The root is not counted, so charging it alone changes nothing that is stated. -/
lemma Inv.charge_root (h : t.Inv) (a b : Int) : (t.charge (t.chain root) a b).Inv :=
  h.recharge h.shape.members
    (fun j hj => by rw [if_neg (h.shape.not_mem_root hj), add_zero])
    fun j hj => by rw [if_neg (h.shape.not_mem_root hj), add_zero]

/-- A new member, charged along its chain. -/
lemma Inv.putIn (h : t.Inv) (hnew : t.members.lookup tid = none) (live : Bool)
    (hid : ∃ n, t.nodes id = some n) :
    ({ t with members := t.members.insert tid ⟨id, live⟩ }.charge (t.chain id) 1
      (if live then 1 else 0)).Inv := by
  have hnot : tid ∉ t.members := fun hc => by
    have := AList.lookup_isSome.mpr hc
    rw [hnew] at this
    cases this
  refine h.recharge (fun tid' m hl => ?_) (fun j _ => ?_) fun j _ => ?_
  · by_cases ht : tid' = tid
    · subst ht
      rw [AList.lookup_insert] at hl
      cases hl
      exact hid
    · rw [AList.lookup_insert_ne ht] at hl
      exact h.shape.members tid' m hl
  · rw [weight_insert _ hnot]
    simp only [inside]
    split <;> push_cast <;> ring
  rw [weight_insert _ hnot]
  simp only [alive]
  cases live <;> by_cases hj : j ∈ t.chain id <;> simp [hj, add_comm]

lemma Inv.attachNew (h : t.Inv) (hnew : t.members.lookup tid = none)
    (hid : ∃ n, t.nodes id = some n) : (t.attachNew tid id).Inv := by
  unfold Tree.attachNew
  dsimp only
  split
  · rw [(charge_members ..).1, charge_setMembers]
    exact h.putIn hnew true hid
  next hroot =>
  obtain rfl : id = root := by simpa using hroot
  exact h.charge_root 1 1

lemma Inv.exit (h : t.Inv) (tid : Nat) : (t.exit tid).Inv := by
  unfold Tree.exit
  split
  · next m hm =>
    split
    · next hlive =>
      simp only [setMembers_chain]
      refine h.recharge (fun tid' m' hl => ?_) (fun j _ => ?_) fun j _ => ?_
      · by_cases ht : tid' = tid
        · subst ht
          rw [AList.lookup_insert] at hl
          cases hl
          exact h.shape.members tid' m hm
        · rw [AList.lookup_insert_ne ht] at hl
          exact h.shape.members tid' m' hl
      · have := weight_replace (t.inside j) hm { m with live := false }
        simp only [inside] at this ⊢
        split <;> omega
      have := weight_replace (t.alive j) hm { m with live := false }
      simp only [alive, hlive, true_and, Bool.false_eq_true, false_and, if_false] at this ⊢
      split <;> rename_i hj <;> simp only [hj, if_true, if_false] at this <;> omega
    · exact h
  · exact h.charge_root 0 (-1)

lemma exit_lookup (tid tid' : Nat) : (t.exit tid).members.lookup tid' =
    if tid' = tid then (t.members.lookup tid).map (fun m => { m with live := false })
    else t.members.lookup tid' := by
  unfold Tree.exit
  split
  · next m hm =>
    rw [hm]
    split
    · rw [(charge_members ..).1]
      split
      · next he =>
        subst he
        exact AList.lookup_insert _
      · next he => exact AList.lookup_insert_ne he
    next hlive =>
    split
    · next he =>
      rw [he, hm]
      have : m.live = false := by simpa using hlive
      simp [← this]
    · rfl
  next hm =>
  rw [(charge_members ..).1]
  split
  · next he => rw [he, hm]; rfl
  · rfl

/-- A member goes, and its chain is discharged by what it counted for. -/
lemma Inv.takeOut (h : t.Inv) (live : Bool)
    (hlive : ∀ m, t.members.lookup tid = some m → m.live = live) :
    ({ t with members := t.members.erase tid }.charge (t.chain (t.nodeOf tid)) (-1)
      (-if live then 1 else 0)).Inv := by
  refine h.recharge (fun tid' m' hl => ?_) (fun j hj => ?_) fun j hj => ?_
  · by_cases ht : tid' = tid
    · subst ht
      rw [AList.lookup_erase] at hl
      cases hl
    · rw [AList.lookup_erase_ne ht] at hl
      exact h.shape.members tid' m' hl
  all_goals
    cases hm : t.members.lookup tid with
    | some m =>
      have hnode : t.nodeOf tid = m.node := by simp [nodeOf, hm]
      have hm' := hlive m hm
      have h1 := weight_erase (t.inside j) hm
      have h2 := weight_erase (t.alive j) hm
      rw [hnode]
      simp only [inside, alive, hm'] at h1 h2 ⊢
      by_cases hj' : j ∈ t.chain m.node <;> cases live <;> simp [hj'] at h1 h2 ⊢ <;> omega
    | none =>
      have hnode : t.nodeOf tid = root := by simp [nodeOf, hm]
      rw [hnode, if_neg (h.shape.not_mem_root hj), weight_erase_none hm, add_zero]

lemma Inv.release (h : t.Inv) (tid : Nat) : (t.release tid).Inv := by
  have herase : ∀ {t : Tree}, t.Inv → (t.members.lookup tid).any (·.live) = false →
      ({ t with members := t.members.erase tid }.charge (t.chain (t.nodeOf tid)) (-1) 0).Inv := by
    intro t h hdead
    have hout := h.takeOut false fun m (hm : t.members.lookup tid = some m) => by
      simpa [hm] using hdead
    simpa using hout
  unfold Tree.release
  simp only [setMembers_chain]
  split
  · refine herase (h.exit tid) ?_
    rw [exit_lookup, if_pos rfl]
    cases t.members.lookup tid <;> rfl
  · next hdead => exact herase h (by simpa using hdead)

lemma release_lookup (tid tid' : Nat) : (t.release tid).members.lookup tid' =
    if tid' = tid then none else t.members.lookup tid' := by
  unfold Tree.release
  simp only [(charge_members ..).1]
  by_cases he : tid' = tid
  · subst he
    rw [if_pos rfl, AList.lookup_erase]
  rw [if_neg he, AList.lookup_erase_ne he]
  split
  · rw [exit_lookup, if_neg he]
  · rfl

/-! ### Moving a task -/

/-- A move is a member taken out and put in again, at the root without being recorded. -/
lemma move_eq (hfrom : t.nodeOf tid ≠ id) {alive live : Bool}
    (hlive : (alive && (t.members.lookup tid).all (·.live)) = live) {t1 : Tree}
    (ht1 : t1 = { t with members := t.members.erase tid }.charge (t.chain (t.nodeOf tid)) (-1)
      (-if live then 1 else 0)) :
    t.move id tid alive = if id = root then t1.charge (t1.chain id) 1 (if live then 1 else 0)
      else { t1 with members := t1.members.insert tid ⟨id, live⟩ }.charge (t1.chain id) 1
        (if live then 1 else 0) := by
  have hms : t1.members = t.members.erase tid := by rw [ht1, (charge_members ..).1]
  have hins : (t.members.erase tid).insert tid ⟨id, live⟩ = t.members.insert tid ⟨id, live⟩ := by
    refine AList.ext (congrArg (List.cons _) ?_)
    exact List.kerase_of_notMem_keys (List.notMem_keys_kerase tid t.members.nodupKeys)
  have hset : ∀ ms, { t1 with members := ms } =
      { t.charge (t.chain (t.nodeOf tid)) (-1) (-if live then 1 else 0) with members := ms } := by
    intro ms
    rw [ht1, ← charge_setMembers]
  have hchain : t1.chain id = (t.charge (t.chain (t.nodeOf tid)) (-1)
      (-if live then 1 else 0)).chain id := by
    rw [← setMembers_chain (t := t1) t.members, hset, setMembers_chain]
  unfold Tree.move
  rw [if_neg hfrom, hlive, hms, hins, hset, hchain]
  dsimp only
  split
  · rw [(charge_members ..).1, (charge_members ..).1, charge_setMembers, ← hset, ← hms]
  · rw [(charge_members ..).1, (charge_members ..).1, charge_setMembers]

lemma Inv.move (h : t.Inv) (alive : Bool) (hid : ∃ n, t.nodes id = some n)
    (hlive : ∀ m, t.members.lookup tid = some m → m.live = true → alive = true) :
    (t.move id tid alive).Inv ∧ (∀ j, (∃ n, t.nodes j = some n) →
      ∃ n, (t.move id tid alive).nodes j = some n) ∧
      ∀ tid', (t.move id tid alive).members.lookup tid' = if tid' = tid ∧ t.nodeOf tid ≠ id then
          if id = root then none else some ⟨id, alive && (t.members.lookup tid).all (·.live)⟩
        else t.members.lookup tid' := by
  by_cases hfrom : t.nodeOf tid = id
  · unfold Tree.move
    simp only [hfrom, if_true, ne_eq, not_true_eq_false, and_false, if_false]
    exact ⟨h, fun _ hj => hj, fun _ => trivial⟩
  simp only [hfrom, ne_eq, not_false_eq_true, and_true]
  generalize hlv : (alive && (t.members.lookup tid).all (·.live)) = live
  have hdead : ∀ m, t.members.lookup tid = some m → m.live = live := by
    intro m hm
    rw [hm] at hlv
    cases hml : m.live with
    | false => simpa [hml] using hlv
    | true => simpa [hml, hlive m hm hml] using hlv
  -- in between the task is in no node
  have h1 := h.takeOut live hdead
  have hc1 := charged_setMembers h.shape (t.members.erase tid) (t.nodeOf tid) (-1)
    (-if live then 1 else 0)
  have hms := (charge_members (t.chain (t.nodeOf tid)) (-1) (-if live then 1 else 0)
    { t with members := t.members.erase tid }).1
  have hkeep : ∀ j, (∃ n, t.nodes j = some n) → ∃ n, (({ t with members := t.members.erase tid
      }.charge (t.chain (t.nodeOf tid)) (-1) (-if live then 1 else 0)).nodes j = some n) := by
    rintro j ⟨n, hn⟩
    obtain ⟨n', hn', -⟩ := hc1.to_some hn
    exact ⟨n', hn'⟩
  rw [move_eq hfrom hlv rfl]
  generalize { t with members := t.members.erase tid }.charge (t.chain (t.nodeOf tid)) (-1)
    (-if live then 1 else 0) = t1 at h1 hms hkeep ⊢
  have hkeep2 : ∀ ms j, (∃ n, t.nodes j = some n) → ∃ n, ({ t1 with members := ms }.charge
      (t1.chain id) 1 (if live then 1 else 0)).nodes j = some n := by
    intro ms j hj
    have ⟨n, hn⟩ := hkeep j hj
    obtain ⟨n', hn', -⟩ := (charged_setMembers h1.shape ms id 1 (if live then 1 else 0)).to_some hn
    exact ⟨n', hn'⟩
  by_cases hroot : id = root
  · simp only [hroot, if_true]
    refine ⟨h1.charge_root .., hroot ▸ hkeep2 t1.members, fun tid' => ?_⟩
    rw [(charge_members ..).1, hms]
    split
    · next he =>
      subst he
      exact AList.lookup_erase ..
    · next he => exact AList.lookup_erase_ne he
  simp only [hroot, if_false]
  refine ⟨h1.putIn (by rw [hms]; exact AList.lookup_erase ..) live (hkeep id hid),
    hkeep2 _, fun tid' => ?_⟩
  rw [(charge_members ..).1]
  split
  · next he =>
    subst he
    exact AList.lookup_insert _
  · next he => rw [AList.lookup_insert_ne he, hms, AList.lookup_erase_ne he]

/-! ### Nodes that come and go -/

lemma weight_eq_zero {w : Nat → Member → Nat} {ms : Assoc Nat Member}
    (hw : ∀ tid m, ms.lookup tid = some m → w tid m = 0) : weight w ms = 0 := by
  by_contra hc
  have ⟨tid, m, hm, hpos⟩ := exists_of_weight_pos w (pos_of_ne_zero hc)
  rw [hw tid m hm] at hpos
  exact absurd hpos (lt_irrefl 0)

/-- The new node has the next id, and the members stay. -/
lemma mkdir_spec {parent : Nat} {name : String} {file : Bool} (hid : t.nextId + 1 < 2 ^ 32)
    (hs : t.mkdir parent name file = some t') : ∃ p, t.nodes parent = some p ∧
    p.children.lookup name = none ∧ t'.members = t.members ∧ t'.nextId = t.nextId + 1 ∧
    (parent ≠ t.nextId → ∀ k, t'.nodes k = if k = parent
      then some { p with children := p.children.insert name t.nextId }
      else if k = t.nextId then some (.new name (some parent)) else t.nodes k) := by
  unfold Tree.mkdir at hs
  split at hs
  · cases hs
  next p hp =>
  split at hs
  · cases hs
  next hname =>
  split at hs
  · cases hs
  have ht := (Option.some.inj hs).symm
  refine ⟨p, hp, ?_, by rw [ht]; rfl, by rw [ht]; exact Nat.mod_eq_of_lt hid, fun hne k => ?_⟩
  · cases hl : p.children.lookup name with
    | none => rfl
    | some x => simp [hl] at hname
  · rw [ht]
    simp only [modify, setNode, hne, if_false, hp, Option.map_some]

lemma Inv.mkdir (h : t.Inv) {parent : Nat} {name : String} {file : Bool}
    (hid : t.nextId + 1 < 2 ^ 32) (hs : t.mkdir parent name file = some t') :
    t'.Inv ∧ t'.members = t.members := by
  have ⟨p, hp, hfree, hmem, hnext, hnodes⟩ := mkdir_spec hid hs
  have hplt := h.shape.lt parent p hp
  have hnodes := hnodes hplt.ne
  have hof : ∀ {k : Nat} {n' : Node}, t'.nodes k = some n' →
      (k = t.nextId ∧ n' = .new name (some parent)) ∨ ∃ n, t.nodes k = some n ∧
        n'.name = n.name ∧ n'.parent = n.parent ∧ n'.tasks = n.tasks ∧ n'.live = n.live := by
    intro k n' hk
    rw [hnodes] at hk
    split at hk
    · next hkp =>
      cases hk
      exact .inr ⟨p, hkp ▸ hp, rfl, rfl, rfl, rfl⟩
    split at hk
    · next hkn =>
      cases hk
      exact .inl ⟨hkn, rfl⟩
    · exact .inr ⟨n', hk, rfl, rfl, rfl, rfl⟩
  have hkeeps : Keeps t t' fun _ => False := by
    refine ⟨fun hk hlt => ?_, fun {k n} hk _ => ?_, fun _ => not_false, by omega⟩
    · rcases hof hk with ⟨rfl, -⟩ | ⟨n, hn, hname, hpar, -⟩
      · exact absurd hlt (lt_irrefl _)
      · exact ⟨not_false, n, hn, hname, hpar⟩
    rw [hnodes]
    by_cases hkp : k = parent
    · subst hkp
      rw [hp] at hk
      cases hk
      refine ⟨_, if_pos rfl, rfl, fun nm x hx _ => ?_⟩
      by_cases hnm : nm = name
      · rw [hnm, hfree] at hx
        cases hx
      · exact (AList.lookup_insert_ne hnm).trans hx
    · rw [if_neg hkp, if_neg (h.shape.lt k n hk).ne]
      exact ⟨n, hk, rfl, fun _ _ hx _ => hx⟩
  refine ⟨hkeeps.inv h.shape not_false (fun k n' hk hge => ?_)
    (fun tid m hm => ⟨h.shape.members tid m (hmem ▸ hm), not_false⟩) fun k n' hk hroot => ?_, hmem⟩
  · rcases hof hk with ⟨rfl, rfl⟩ | ⟨n, hn, -⟩
    · refine ⟨by omega, fun q hq => ?_⟩
      cases hq
      exact ⟨hplt, _, (hnodes parent).trans (if_pos rfl), AList.lookup_insert _⟩
    · exact absurd (h.shape.lt k n hn) hge
  rw [hmem]
  rcases hof hk with ⟨rfl, rfl⟩ | ⟨n, hn, -, -, ht, hl⟩
  · -- nobody can be below a node that is new
    have hnone : ∀ tid m, t.members.lookup tid = some m → t.nextId ∉ t.chain m.node := by
      intro tid m hm hc
      have ⟨n, hn⟩ := h.shape.members tid m hm
      have := le_of_mem_chain h.shape.down _ hc
      have := h.shape.lt _ n hn
      omega
    exact ⟨(weight_eq_zero fun tid m hm => if_neg (hnone tid m hm)).symm,
      (weight_eq_zero fun tid m hm => if_neg fun hc => hnone tid m hm hc.2).symm⟩
  · rw [ht, hl]
    exact h.counted k n hn hroot

/-! ### A node goes -/

/-- Members of a node that goes are moved to its parent. -/
lemma moveUp_lookup (parent : Nat) (ms : Assoc Nat Member) (k tid : Nat) :
    (moveUp parent ms k).lookup tid =
      if tid = k then (ms.lookup tid).map (fun m => { m with node := parent }) else ms.lookup tid := by
  unfold moveUp
  split
  · next m hm =>
    split
    · next he =>
      subst he
      rw [AList.lookup_insert, hm]
      rfl
    · next he => exact AList.lookup_insert_ne he
  next hm =>
  split
  · next he =>
    subst he
    rw [hm]
    rfl
  · rfl

lemma foldl_moveUp_lookup (parent : Nat) : ∀ (l : List Nat) (ms : Assoc Nat Member) (tid : Nat),
    (l.foldl (moveUp parent) ms).lookup tid =
      if tid ∈ l then (ms.lookup tid).map (fun m => { m with node := parent }) else ms.lookup tid := by
  intro l
  induction l with
  | nil => exact fun _ _ => rfl
  | cons k l ih =>
    intro ms tid
    rw [List.foldl_cons, ih, moveUp_lookup]
    by_cases hk : tid = k
    · simp only [hk, if_true, List.mem_cons, true_or, Option.map_map]
      split <;> rfl
    · simp only [hk, if_false, List.mem_cons, false_or]

/-- A weight that does not tell the node from its parent is kept. -/
lemma foldl_moveUp_weight (id : Nat) {parent : Nat} {w : Nat → Member → Nat}
    (hw : ∀ tid m, m.node = id → w tid { m with node := parent } = w tid m) :
    ∀ (l : List Nat) (ms : Assoc Nat Member),
      (∀ tid ∈ l, ∀ m, ms.lookup tid = some m → m.node = id ∨ m.node = parent) →
      weight w (l.foldl (moveUp parent) ms) = weight w ms := by
  intro l
  induction l with
  | nil => exact fun _ _ => rfl
  | cons k l ih =>
    intro ms hms
    have hone : weight w (moveUp parent ms k) = weight w ms := by
      unfold moveUp
      split
      · next m hm =>
        have := weight_replace w hm { m with node := parent }
        have heq : w k { m with node := parent } = w k m := by
          rcases hms k List.mem_cons_self m hm with hc | hc
          · exact hw k m hc
          · rw [← hc]
        omega
      · rfl
    rw [List.foldl_cons, ih, hone]
    intro tid htid m hm
    rw [moveUp_lookup] at hm
    split at hm
    · obtain ⟨m', -, rfl⟩ := Option.map_eq_some_iff.mp hm
      exact .inr rfl
    · exact hms tid (List.mem_cons_of_mem _ htid) m hm

lemma mem_tidsIn : tid ∈ t.tidsIn id ↔ ∃ m, t.members.lookup tid = some m ∧ m.node = id := by
  unfold tidsIn
  rw [List.mem_map]
  constructor
  · rintro ⟨e, he, rfl⟩
    obtain ⟨he, hid⟩ := List.mem_filter.mp he
    exact ⟨e.2, AList.mem_lookup_iff.mpr he, by simpa using hid⟩
  · rintro ⟨m, hm, hid⟩
    exact ⟨⟨tid, m⟩, List.mem_filter.mpr ⟨AList.mem_lookup_iff.mp hm, by simpa using hid⟩, rfl⟩

/-- A node goes only without children and without members that are alive. -/
lemma rmdir_spec (hs : t.rmdir id = some t') : ∃ n parent, t.nodes id = some n ∧
    n.parent = some parent ∧ n.children.entries = [] ∧ n.live = 0 ∧
    t'.members = (t.tidsIn id).foldl (moveUp parent) t.members ∧ t'.nextId = t.nextId ∧
    ∀ k, t'.nodes k = if k = parent then
      (if parent = id then none else t.nodes parent).map (fun p =>
        { p with children := p.children.erase n.name })
      else if k = id then none else t.nodes k := by
  unfold Tree.rmdir at hs
  split at hs
  · cases hs
  next n hn =>
  split at hs
  · cases hs
  next parent hp =>
  split at hs
  · cases hs
  next hok =>
  simp only [Bool.or_eq_true, Bool.not_eq_true', decide_eq_true_eq, not_or,
    Bool.not_eq_false, List.isEmpty_iff, not_lt, Nat.le_zero] at hok
  have ht := (Option.some.inj hs).symm
  refine ⟨n, parent, hn, hp, hok.1, hok.2, by rw [ht]; rfl, by rw [ht]; rfl, fun k => ?_⟩
  rw [ht]
  simp only [modify, setNode]

lemma Inv.rmdir (h : t.Inv) (hs : t.rmdir id = some t') :
    t'.Inv ∧ ∀ tid, t'.members.lookup tid = none ↔ t.members.lookup tid = none := by
  obtain ⟨n, parent, hn, hp, hleaf, -, hms, hnext, hnodes⟩ := rmdir_spec hs
  obtain ⟨hlt, q, hq, hql⟩ := h.shape.parent id n parent hn hp
  have hne : parent ≠ id := ne_of_lt hlt
  simp only [hne, if_false, hq, Option.map_some] at hnodes
  have hof : ∀ {k : Nat} {m' : Node}, t'.nodes k = some m' → k ≠ id ∧ ∃ m, t.nodes k = some m ∧
      m'.name = m.name ∧ m'.parent = m.parent ∧ m'.tasks = m.tasks ∧ m'.live = m.live := by
    intro k m' hk
    rw [hnodes] at hk
    split at hk
    · next he =>
      cases hk
      rw [he]
      exact ⟨hne, q, hq, rfl, rfl, rfl, rfl⟩
    · split at hk
      · cases hk
      · next hkid => exact ⟨hkid, m', hk, rfl, rfl, rfl, rfl⟩
  have hkeeps : Keeps t t' (· = id) := by
    refine ⟨fun hk _ => ?_, fun {k m} hk hkid => ?_, fun {k p} hpk hid => ?_, hnext.ge⟩
    · obtain ⟨hkid, m, hm, hname, hpar, -⟩ := hof hk
      exact ⟨hkid, m, hm, hname, hpar⟩
    · rw [hnodes]
      split
      · next he =>
        subst he
        rw [hq] at hk
        cases hk
        refine ⟨_, rfl, rfl, fun nm x hx hxid => ?_⟩
        by_cases hnm : nm = n.name
        · rw [hnm, hql] at hx
          exact absurd (Option.some.inj hx).symm hxid
        · exact (AList.lookup_erase_ne hnm).trans hx
      · exact ⟨m, hk, rfl, fun _ _ hx _ => hx⟩
    -- nothing is below the node
    obtain ⟨m, hm, hmp⟩ := Option.bind_eq_some_iff.mp hpk
    obtain ⟨-, r, hr, hl⟩ := h.shape.parent k m p hm hmp
    rw [hid, hn] at hr
    cases hr
    have hmem := AList.mem_lookup_iff.mp hl
    rw [hleaf] at hmem
    cases hmem
  have hroot : root ≠ id := by
    rintro rfl
    obtain ⟨r, hr, hrp⟩ := h.shape.top
    rw [hn] at hr
    cases hr
    rw [hp] at hrp
    cases hrp
  have hup : t.chain id = id :: t.chain parent := by
    refine chain_below h.shape.down ?_
    rw [parentOf, hn]
    exact hp
  have htids : ∀ tid ∈ t.tidsIn id, ∀ m, t.members.lookup tid = some m →
      m.node = id ∨ m.node = parent := by
    intro tid ht m hm
    obtain ⟨m', hm', hid⟩ := mem_tidsIn.mp ht
    rw [hm] at hm'
    cases hm'
    exact .inl hid
  refine ⟨hkeeps.inv h.shape hroot (fun k m' hk hge => ?_) (fun tid m' hm => ?_)
    fun k m' hk hkroot => ?_, fun tid => ?_⟩
  · obtain ⟨-, m, hm, -⟩ := hof hk
    exact absurd (h.shape.lt k m hm) hge
  · rw [hms, foldl_moveUp_lookup] at hm
    split at hm
    · obtain ⟨m, -, rfl⟩ := Option.map_eq_some_iff.mp hm
      exact ⟨⟨q, hq⟩, hne⟩
    · next hnot =>
      exact ⟨h.shape.members tid m' hm, fun hc => hnot (mem_tidsIn.mpr ⟨m', hm, hc⟩)⟩
  · obtain ⟨hkid, m, hm, -, -, ht, hl⟩ := hof hk
    have hmem : (k ∈ t.chain id) = (k ∈ t.chain parent) := by
      rw [hup]
      simp [hkid]
    rw [ht, hl, hms, foldl_moveUp_weight id (fun tid m hid => ?_) _ _ htids,
      foldl_moveUp_weight id (fun tid m hid => ?_) _ _ htids]
    · exact h.counted k m hm hkroot
    · simp only [alive, hid, hmem]
    · simp only [inside, hid, hmem]
  rw [hms, foldl_moveUp_lookup]
  split
  · exact Option.map_eq_none_iff
  · exact Iff.rfl

lemma Inv.setLimits (h : t.Inv) (id : Nat) (below : Bool) (pids depth descendants : Option Nat) :
    (t.setLimits id below pids depth descendants).Inv := by
  have hof : ∀ {k : Nat} {m' : Node},
      (t.setLimits id below pids depth descendants).nodes k = some m' → ∃ m, t.nodes k = some m ∧
        m'.name = m.name ∧ m'.parent = m.parent ∧ m'.tasks = m.tasks ∧ m'.live = m.live := by
    intro k m' hk
    simp only [Tree.setLimits, modify, setNode] at hk
    split at hk
    · next he =>
      obtain ⟨m, hm, rfl⟩ := Option.map_eq_some_iff.mp hk
      exact ⟨m, he ▸ hm, rfl, rfl, rfl, rfl⟩
    · exact ⟨m', hk, rfl, rfl, rfl, rfl⟩
  have hkeeps : Keeps t (t.setLimits id below pids depth descendants) fun _ => False := by
    refine ⟨fun hk _ => ?_, fun {k m} hk _ => ?_, fun _ => not_false, le_refl _⟩
    · obtain ⟨m, hm, hname, hpar, -⟩ := hof hk
      exact ⟨not_false, m, hm, hname, hpar⟩
    simp only [Tree.setLimits, modify, setNode]
    split
    · next he =>
      rw [← he, hk]
      exact ⟨_, rfl, rfl, fun _ _ hx _ => hx⟩
    · exact ⟨m, hk, rfl, fun _ _ hx _ => hx⟩
  refine hkeeps.inv h.shape not_false (fun k m' hk hge => ?_)
    (fun tid m hm => ⟨h.shape.members tid m hm, not_false⟩) fun k m' hk hroot => ?_
  · obtain ⟨m, hm, -⟩ := hof hk
    exact absurd (h.shape.lt k m hm) hge
  obtain ⟨m, hm, -, -, ht, hl⟩ := hof hk
  rw [ht, hl]
  exact h.counted k m hm hroot

lemma inv_init : Tree.init.Inv := by
  refine ⟨⟨⟨_, rfl, rfl⟩, fun id n hn => ?_, fun id n p hn hp => ?_, fun tid m hm => ?_⟩, ?_⟩
  · simp only [Tree.init] at hn
    split at hn
    · next he =>
      rw [he]
      exact Nat.one_pos
    · cases hn
  · simp only [Tree.init] at hn
    split at hn
    · cases hn
      cases hp
    · cases hn
  · cases hm
  intro id n hn hid
  simp only [Tree.init, hid, if_false] at hn
  cases hn

end Tree

namespace Sys

variable {s s' : Sys}

/-! ### Members are tasks -/

/-- Members are tasks, each once, and one that is marked as exited is a zombie. -/
structure Inv (s : Sys) : Prop where
  tree : s.tree.Inv
  nodup : (s.tasks.map (·.pid)).Nodup
  task : ∀ tid m, s.tree.members.lookup tid = some m →
    ∃ u ∈ s.tasks, u.pid = tid ∧ (m.live = false → u.zombie = true)

variable {u c : Task} {t : Tree} {id pid : Nat} {thread : Bool} {into : Option Nat}

lemma Inv.eq_of_pid (h : s.Inv) {v : Task} (hu : u ∈ s.tasks) (hv : v ∈ s.tasks)
    (he : u.pid = v.pid) : u = v :=
  List.inj_on_of_nodup_map h.nodup hu hv he

/-- The task is a zombie, or there is none. -/
def gone (s : Sys) (tid : Nat) : Bool := (s.tasks.find? (·.pid = tid)).all (·.zombie)

lemma Inv.gone_iff (h : s.Inv) (hu : u ∈ s.tasks) : s.gone u.pid = u.zombie := by
  unfold gone
  cases hf : s.tasks.find? (·.pid = u.pid) with
  | none =>
    have := List.find?_eq_none.mp hf u hu
    simp at this
  | some v =>
    have hv := List.mem_of_find?_eq_some hf
    have hp : v.pid = u.pid := by simpa using List.find?_some hf
    rw [h.eq_of_pid hv hu hp]
    rfl

/-- The exits that have not been noticed are marked one after the other. -/
lemma syncExits_eq (s : Sys) : s.syncExits = { s with
    tree := ((s.tree.members.entries.filter (·.2.live)).map (·.1)).foldl
      (fun t tid => if s.gone tid then t.exit tid else t) s.tree } := by
  simp only [syncExits, Sys.mk.injEq, and_true]
  refine List.foldl_ext _ _ _ fun t tid _ => ?_
  unfold gone
  cases s.tasks.find? (·.pid = tid) <;> rfl

lemma sync_lookup (s : Sys) : ∀ (l : List Nat) (t : Tree) (tid : Nat),
    (l.foldl (fun t tid => if s.gone tid then t.exit tid else t) t).members.lookup tid =
      if tid ∈ l ∧ s.gone tid = true then (t.members.lookup tid).map (fun m => { m with live := false })
      else t.members.lookup tid := by
  intro l
  induction l with
  | nil =>
    intro t tid
    simp
  | cons k l ih =>
    intro t tid
    rw [List.foldl_cons, ih]
    by_cases hk : tid = k
    · subst hk
      by_cases hg : s.gone tid = true
      · simp only [hg, if_true, and_true, List.mem_cons, true_or, Tree.exit_lookup, Option.map_map]
        split <;> rfl
      · simp only [hg, and_false, if_false, Bool.false_eq_true]
    have hx : (if s.gone k = true then t.exit k else t).members.lookup tid =
        t.members.lookup tid := by
      split
      · rw [Tree.exit_lookup, if_neg hk]
      · rfl
    rw [hx]
    simp only [List.mem_cons, hk, false_or]

lemma sync_inv (s : Sys) : ∀ (l : List Nat) (t : Tree), t.Inv →
    (l.foldl (fun t tid => if s.gone tid then t.exit tid else t) t).Inv := by
  intro l
  induction l with
  | nil => exact fun _ h => h
  | cons k l ih =>
    intro t h
    rw [List.foldl_cons]
    refine ih _ ?_
    split
    · exact h.exit k
    · exact h

/-- No member that exited counts as alive. -/
def Synced (s : Sys) : Prop := ∀ tid m, s.tree.members.lookup tid = some m → m.live = true →
  ∀ u ∈ s.tasks, u.pid = tid → u.zombie = false

lemma Inv.syncExits (h : s.Inv) : s.syncExits.Inv ∧ s.syncExits.Synced ∧
    s.syncExits.tasks = s.tasks := by
  rw [syncExits_eq]
  refine ⟨⟨sync_inv s _ _ h.tree, h.nodup, fun tid m hm => ?_⟩, fun tid m hm hlive u hu hp => ?_, rfl⟩
  · rw [sync_lookup] at hm
    split at hm
    · next hg =>
      obtain ⟨m', hm', rfl⟩ := Option.map_eq_some_iff.mp hm
      obtain ⟨u, hu, rfl, -⟩ := h.task tid m' hm'
      exact ⟨u, hu, rfl, fun _ => (h.gone_iff hu).symm.trans hg.2⟩
    · exact h.task tid m hm
  rw [sync_lookup] at hm
  split at hm
  · obtain ⟨m', -, rfl⟩ := Option.map_eq_some_iff.mp hm
    cases hlive
  next hg =>
  -- it was alive, so it has been looked at
  have hmem : tid ∈ (s.tree.members.entries.filter (·.2.live)).map (·.1) :=
    List.mem_map.mpr ⟨⟨tid, m⟩, List.mem_filter.mpr ⟨AList.mem_lookup_iff.mp hm, hlive⟩, rfl⟩
  have hg : s.gone tid ≠ true := fun hc => hg ⟨hmem, hc⟩
  rw [← hp, h.gone_iff hu] at hg
  simpa using hg

/-! ### The steps -/

/-- A fork does not fail after the charge, its id is new, no zombie is in a node that is removed,
and the ids of the nodes have not run out. -/
def Tidy (s : Sys) : Op → Prop
  | .fork _ _ _ pid late => late = false ∧ ∀ u ∈ s.tasks, u.pid ≠ pid
  | .rmdir id => ∀ u ∈ s.tasks, u.zombie = true → s.tree.nodeOf u.pid ≠ id
  | .mkdir _ _ _ => s.tree.nextId + 1 < 2 ^ 32
  | _ => True

/-- A fork that is admitted keeps below the limit of every node above. -/
lemma node_of_canFork {explicit : Bool}
    (hc : t.canFork id explicit = true) : ∀ a ∈ t.chain id, ∃ n, t.nodes a = some n ∧
      ∀ max, n.pidsMax = some max → n.tasks + 1 ≤ max := by
  intro a ha
  simp only [Tree.canFork, Bool.and_eq_true, List.all_eq_true] at hc
  obtain ⟨n, hn, hall⟩ := (Option.any_eq_true ..).mp (hc.2 a ha)
  refine ⟨n, hn, fun max hmax => ?_⟩
  simpa [hmax] using hall

lemma attachNew_lookup (t : Tree) (pid id tid : Nat) : (t.attachNew pid id).members.lookup tid =
    if tid = pid ∧ id ≠ root then some ⟨id, true⟩ else t.members.lookup tid := by
  unfold Tree.attachNew
  have hm := (Tree.charge_members (t.chain id) 1 1 t).1
  by_cases hid : id = root
  · simp [hid, (Tree.charge_members ..).1]
  simp only [hid, ne_eq, not_false_eq_true, if_true, and_true, hm]
  split
  · next he =>
    subst he
    exact AList.lookup_insert _
  · next he => exact AList.lookup_insert_ne he

lemma Inv.not_member (h : s.Inv) (hp : ∀ u ∈ s.tasks, u.pid ≠ pid) :
    s.tree.members.lookup pid = none := by
  cases hm : s.tree.members.lookup pid with
  | none => rfl
  | some m =>
    obtain ⟨u, hu, he, -⟩ := h.task pid m hm
    exact absurd he (hp u hu)

/-- A fork that fails late has charged its node and adds no task. -/
lemma fork_spec {late : Bool} (hs : s.fork c thread into pid late = some s') :
    s.tree.canFork (into.getD (s.tree.nodeOf c.pid)) into.isSome = true ∧
      s'.tree = s.tree.attachNew pid (into.getD (s.tree.nodeOf c.pid)) ∧
      s'.tasks = if late then s.tasks else
        s.tasks ++ [⟨pid, if thread then c.tgid else pid, false⟩] := by
  simp only [Sys.fork] at hs
  split at hs
  · cases hs
  next hok =>
  have hcan : s.tree.canFork (into.getD (s.tree.nodeOf c.pid)) into.isSome = true := by
    by_contra hc
    simp [hc] at hok
  cases late with
  | true | false =>
    cases hs
    exact ⟨hcan, rfl, rfl⟩

lemma Inv.fork (h : s.Inv)
    (hp : ∀ u ∈ s.tasks, u.pid ≠ pid) (hs : s.fork c thread into pid false = some s') : s'.Inv := by
  obtain ⟨hcan, htree, htasks⟩ := fork_spec hs
  simp only [Bool.false_eq_true, if_false] at htasks
  obtain ⟨n, hn, -⟩ := node_of_canFork hcan _ (Tree.self_mem_chain h.tree.shape.down _)
  refine ⟨?_, ?_, fun tid m hm => ?_⟩
  · rw [htree]
    exact h.tree.attachNew (h.not_member hp) ⟨n, hn⟩
  · rw [htasks, List.map_append]
    refine List.nodup_append.mpr ⟨h.nodup, List.nodup_singleton _, fun a ha b hb hab => ?_⟩
    obtain ⟨u, hu, rfl⟩ := List.mem_map.mp ha
    have hb : b = pid := by simpa using hb
    exact hp u hu (hab.trans hb)
  rw [htree, attachNew_lookup] at hm
  rw [htasks]
  split at hm
  · next he =>
    cases hm
    exact ⟨_, List.mem_append_right _ (List.mem_singleton_self _), he.1.symm,
      fun hc => absurd hc.symm Bool.false_ne_true⟩
  · obtain ⟨u, hu, hr⟩ := h.task tid m hm
    exact ⟨u, List.mem_append_left _ hu, hr⟩

lemma Inv.exit (h : s.Inv) (hs : s.exit c = some s') : s'.Inv := by
  unfold Sys.exit at hs
  split at hs
  · cases hs
  cases hs
  refine ⟨h.tree, ?_, fun tid m hm => ?_⟩
  · have : (s.tasks.map fun u => if u = c then { c with zombie := true } else u).map (·.pid) =
        s.tasks.map (·.pid) := by
      rw [List.map_map]
      refine List.map_congr_left fun u _ => ?_
      simp only [Function.comp]
      split
      · next he => rw [he]
      · rfl
    rw [this]
    exact h.nodup
  obtain ⟨u, hu, hp, hz⟩ := h.task tid m hm
  refine ⟨_, List.mem_map.mpr ⟨u, hu, rfl⟩, ?_, fun hl => ?_⟩
  · split
    · next he => rw [← hp, he]
    · exact hp
  split
  · rfl
  · exact hz hl

lemma Inv.reap (h : s.Inv) (hs : s.reap c = some s') : s'.Inv := by
  unfold Sys.reap at hs
  split at hs
  · cases hs
  cases hs
  refine ⟨h.tree.release c.pid, h.nodup.sublist (List.Sublist.map _ List.erase_sublist), ?_⟩
  intro tid m hm
  rw [Tree.release_lookup] at hm
  split at hm
  · cases hm
  next hne =>
  obtain ⟨u, hu, hp, hz⟩ := h.task tid m hm
  refine ⟨u, (List.mem_erase_of_ne ?_).mpr hu, hp, hz⟩
  rintro rfl
  exact hne hp.symm

/-- One task of a group is moved, with exits synced before. -/
lemma Inv.moveOne (h : s.Inv) (hsync : s.Synced) (hu : u ∈ s.tasks)
    (hid : ∃ n, s.tree.nodes id = some n) :
    Inv { s with tree := s.tree.move id u.pid (!u.zombie) } ∧
      Synced { s with tree := s.tree.move id u.pid (!u.zombie) } ∧
      ∃ n, (s.tree.move id u.pid (!u.zombie)).nodes id = some n := by
  obtain ⟨hinv, hkeep, hl⟩ := h.tree.move (!u.zombie) hid fun m hm hlive => by
    rw [hsync _ m hm hlive u hu rfl]
    rfl
  refine ⟨⟨hinv, h.nodup, fun tid m hm => ?_⟩, fun tid m hm hlive v hv hp => ?_, hkeep id hid⟩
  · rw [hl] at hm
    split at hm
    · next he =>
      refine ⟨u, hu, he.1.symm, fun hdead => ?_⟩
      split at hm
      · cases hm
      cases hm
      cases hmem : s.tree.members.lookup u.pid with
      | none => simpa [hmem] using hdead
      | some m =>
        obtain ⟨v, hv, hvp, hz⟩ := h.task u.pid m hmem
        rw [h.eq_of_pid hv hu hvp] at hz
        cases hml : m.live with
        | false => exact hz hml
        | true => simpa [hmem, hml] using hdead
    · exact h.task tid m hm
  rw [hl] at hm
  split at hm
  · next he =>
    split at hm
    · cases hm
    cases hm
    rw [h.eq_of_pid hv hu (hp.trans he.1)]
    simp only [Bool.and_eq_true, Bool.not_eq_true'] at hlive
    exact hlive.1
  · exact hsync tid m hm hlive v hv hp

lemma Inv.moveAll (hs : s.Inv) (hsync : s.Synced) (hid : ∃ n, s.tree.nodes id = some n) :
    ∀ l : List Task, (∀ u ∈ l, u ∈ s.tasks) →
      Inv { s with tree := s.tree.migrate (l.map fun u => (u.pid, !u.zombie)) id } := by
  intro l
  induction l generalizing s with
  | nil => exact fun _ => hs
  | cons u l ih =>
    intro hl
    obtain ⟨h1, h2, hid'⟩ := hs.moveOne hsync (hl u List.mem_cons_self) hid
    exact ih h1 h2 hid' fun v hv => hl v (List.mem_cons_of_mem _ hv)

lemma Inv.migrate (h : s.Inv) {tgid : Nat} (hs : s.migrate tgid id = some s') : s'.Inv := by
  simp only [Sys.migrate] at hs
  obtain ⟨hinv, hsync, -⟩ := h.syncExits
  split at hs
  · cases hs
  next hok =>
  cases hs
  have hid : ∃ n, s.syncExits.tree.nodes id = some n := by
    have hok : s.syncExits.tree.checkAttach id = true := by simpa using hok
    obtain ⟨n, hn, -⟩ := (Option.any_eq_true ..).mp hok
    exact ⟨n, hn⟩
  exact hinv.moveAll hsync hid _ fun u hu => List.mem_of_mem_filter hu

lemma rmdir_live {t' : Tree} (hs : t.rmdir id = some t') : ∀ tid m',
    t'.members.lookup tid = some m' → ∃ m, t.members.lookup tid = some m ∧ m'.live = m.live := by
  obtain ⟨n, parent, -, -, -, -, hms, -⟩ := Tree.rmdir_spec hs
  intro tid m' hm
  rw [hms, Tree.foldl_moveUp_lookup] at hm
  split at hm
  · obtain ⟨m, hm', rfl⟩ := Option.map_eq_some_iff.mp hm
    exact ⟨m, hm', rfl⟩
  · exact ⟨m', hm, rfl⟩

/-- **Step**: a tidy operation keeps the invariant. -/
lemma Inv.step (h : s.Inv) {op : Op} (ht : s.Tidy op) (hs : s.step op = some s') : s'.Inv := by
  cases op with
  | fork c thread into pid late =>
    obtain ⟨rfl, hp⟩ := ht
    exact h.fork hp hs
  | exit c => exact h.exit hs
  | reap c => exact h.reap hs
  | migrate tgid id => exact h.migrate hs
  | refresh =>
    cases hs
    exact h.syncExits.1
  | mkdir parent name file =>
    obtain ⟨t, hmk, rfl⟩ := Option.map_eq_some_iff.mp hs
    obtain ⟨hinv, hmem⟩ := h.tree.mkdir ht hmk
    exact ⟨hinv, h.nodup, fun tid m hm => h.task tid m (hmem ▸ hm)⟩
  | rmdir id =>
    obtain ⟨t, hrm, rfl⟩ := Option.map_eq_some_iff.mp hs
    refine ⟨(h.tree.rmdir hrm).1, h.nodup, fun tid m' hm => ?_⟩
    obtain ⟨m, hm, hl⟩ := rmdir_live hrm tid m' hm
    rw [hl]
    exact h.task tid m hm
  | setLimits id below pids depth descendants =>
    cases hs
    exact ⟨h.tree.setLimits id below pids depth descendants, h.nodup, h.task⟩

lemma inv_init : Sys.init.Inv where
  tree := Tree.inv_init
  nodup := List.nodup_singleton _
  task _ _ hm := by
    cases hm

/-! ### What is counted, and what is refused -/

/-- The tasks in the subtree of a node. -/
def within (s : Sys) (id : Nat) : List Task :=
  s.tasks.filter fun u => s.tree.nodeOf u.pid |> s.tree.chain |>.contains id

lemma weight_indicator {p : Member → Prop} [DecidablePred p] (ms : Assoc Nat Member) :
    weight (fun _ m => if p m then 1 else 0) ms = (ms.entries.filter fun e => p e.2).length := by
  unfold weight
  induction ms.entries with
  | nil => rfl
  | cons e l ih =>
    rw [List.map_cons, List.sum_cons, ih]
    show (if p e.2 then 1 else 0) + _ = _
    by_cases hp : p e.2
    · rw [if_pos hp, List.filter_cons_of_pos (by simpa using hp), List.length_cons, add_comm]
    · rw [if_neg hp, List.filter_cons_of_neg (by simpa using hp), zero_add]

/-- What a node counts is the number of tasks in its subtree. -/
lemma Inv.weight_inside (h : s.Inv) (hid : id ≠ root) :
    weight (s.tree.inside id) s.tree.members = (s.within id).length := by
  have hw : weight (s.tree.inside id) s.tree.members =
      ((s.tree.members.entries.filter fun e => id ∈ s.tree.chain e.2.node).map (·.1)).length := by
    rw [List.length_map]
    exact weight_indicator (p := fun m => id ∈ s.tree.chain m.node) s.tree.members
  have hl : (s.within id).length = ((s.within id).map (·.pid)).length := (List.length_map _).symm
  rw [hw, hl]
  refine List.Perm.length_eq ((List.perm_ext_iff_of_nodup ?_ ?_).mpr fun tid => ?_)
  · have hkeys : (s.tree.members.entries.map Sigma.fst).Nodup := s.tree.members.nodupKeys
    exact hkeys.sublist (List.Sublist.map _ List.filter_sublist)
  · exact h.nodup.sublist (List.Sublist.map _ List.filter_sublist)
  rw [List.mem_map, List.mem_map]
  constructor
  · rintro ⟨e, he, rfl⟩
    obtain ⟨he, hin⟩ := List.mem_filter.mp he
    have hlook : s.tree.members.lookup e.1 = some e.2 := AList.mem_lookup_iff.mpr he
    obtain ⟨u, hu, hp, -⟩ := h.task e.1 e.2 hlook
    refine ⟨u, List.mem_filter.mpr ⟨hu, ?_⟩, hp⟩
    have : s.tree.nodeOf u.pid = e.2.node := by rw [hp, Tree.nodeOf, hlook]; rfl
    simpa [this] using hin
  rintro ⟨u, hu, rfl⟩
  obtain ⟨hu, hin⟩ := List.mem_filter.mp hu
  cases hm : s.tree.members.lookup u.pid with
  | none =>
    have hn : s.tree.nodeOf u.pid = root := by rw [Tree.nodeOf, hm]; rfl
    rw [hn, h.tree.shape.chain_root] at hin
    exact absurd (by simpa using hin) hid
  | some m =>
    have hn : s.tree.nodeOf u.pid = m.node := by rw [Tree.nodeOf, hm]; rfl
    refine ⟨⟨u.pid, m⟩, List.mem_filter.mpr ⟨AList.mem_lookup_iff.mp hm, ?_⟩, rfl⟩
    simpa [hn] using hin

/-- What a call that succeeds has respected. -/
def Respects (s s' : Sys) : Op → Prop
  | .fork c _ into _ _ => ∀ a ∈ s.tree.chain (into.getD (s.tree.nodeOf c.pid)), ∀ n max,
      s'.tree.nodes a = some n → n.pidsMax = some max → n.tasks ≤ max
  | .rmdir id => (∀ u ∈ s.tasks, s.tree.nodeOf u.pid ≠ id) ∧
      ∀ k n, s.tree.nodes k = some n → n.parent ≠ some id
  | .mkdir parent _ _ => ∀ a ∈ s.tree.chain parent, ∃ n, s.tree.nodes a = some n ∧
      (∀ d, n.maxDepth = some d → s.tree.depth parent + 1 - s.tree.depth a ≤ d) ∧
      ∀ d, n.maxDescendants = some d → s.tree.descendants a + 1 ≤ d
  | _ => True

lemma Inv.respects_fork (h : s.Inv) {late : Bool}
    (hs : s.fork c thread into pid late = some s') : s.Respects s' (.fork c thread into pid late) := by
  obtain ⟨hcan, htree, -⟩ := fork_spec hs
  intro a ha n max hn hmax
  have ⟨m, hm, hle⟩ := node_of_canFork hcan a ha
  have hnode : s'.tree.nodes a = some (Tree.bump 1 1 m) := by
    have hch := Tree.charge_nodes 1 1 _ s.tree a
      (Tree.nodup_chain h.tree.shape.down (into.getD (s.tree.nodeOf c.pid)))
    rw [if_pos ha, hm] at hch
    rw [htree]
    unfold Tree.attachNew
    split
    · exact hch
    · exact hch
  rw [hnode] at hn
  cases hn
  have := hle max hmax
  simp only [Tree.bump]
  omega

lemma Inv.respects_rmdir (h : s.Inv) (ht : s.Tidy (.rmdir id))
    (hs : s.tree.rmdir id = some t) : s.Respects s' (.rmdir id) := by
  obtain ⟨n, parent, hn, hp, hleaf, hlive, -⟩ := Tree.rmdir_spec hs
  have hroot : id ≠ root := by
    rintro rfl
    obtain ⟨r, hr, hrp⟩ := h.tree.shape.top
    rw [hn] at hr
    cases hr
    rw [hp] at hrp
    cases hrp
  constructor
  · intro u hu hc
    cases hm : s.tree.members.lookup u.pid with
    | none =>
      have : s.tree.nodeOf u.pid = root := by rw [Tree.nodeOf, hm]; rfl
      exact hroot (hc.symm.trans this)
    | some m =>
      have hnode : s.tree.nodeOf u.pid = m.node := by rw [Tree.nodeOf, hm]; rfl
      have hzero := eq_zero_of_weight ((h.tree.counted id n hn hroot).2.symm.trans hlive) hm
      have hin : id ∈ s.tree.chain m.node := by
        rw [← hnode, hc]
        exact Tree.self_mem_chain h.tree.shape.down id
      have hdead : m.live = false := by
        cases hml : m.live with
        | false => rfl
        | true => simp [Tree.alive, hml, hin] at hzero
      have ⟨v, hv, hvp, hz⟩ := h.task u.pid m hm
      rw [h.eq_of_pid hv hu hvp] at hz
      exact ht u hu (hz hdead) hc
  intro k m hk hc
  obtain ⟨-, r, hr, hl⟩ := h.tree.shape.parent k m id hk hc
  rw [hn] at hr
  cases hr
  have hmem := AList.mem_lookup_iff.mp hl
  rw [hleaf] at hmem
  cases hmem

lemma respects_mkdir {parent : Nat} {name : String} {file : Bool}
    (hs : s.tree.mkdir parent name file = some t) : s.Respects s' (.mkdir parent name file) := by
  unfold Tree.mkdir at hs
  split at hs
  · cases hs
  split at hs
  · cases hs
  split at hs
  · cases hs
  next hok =>
  intro a ha
  have hall : (s.tree.chain parent).all (s.tree.allows (s.tree.depth parent + 1)) = true := by
    simpa using hok
  obtain ⟨n, hn, hn'⟩ := (Option.any_eq_true ..).mp (List.all_eq_true.mp hall a ha)
  rw [Bool.and_eq_true] at hn'
  refine ⟨n, hn, fun d hd => ?_, fun d hd => ?_⟩
  · simpa [hd] using hn'.1
  · simpa [hd] using hn'.2

/-- **Cgroups account for their tasks.** In every such run the nodes count their tasks, and calls
that succeed have respected the
limits. -/
theorem cgroups_account {s : Sys} (hr : Run.Reach step Tidy init s) :
    (∀ id n, s.tree.nodes id = some n → id ≠ root → n.tasks = (s.within id).length) ∧
      ∀ op s', s.Tidy op → s.step op = some s' → s.Respects s' op := by
  have h : s.Inv := hr.invariant inv_init fun s op s' h ht hs => h.step ht hs
  refine ⟨fun id n hn hid => ?_, fun op s' ht hs => ?_⟩
  · rw [(h.tree.counted id n hn hid).1]
    exact h.weight_inside hid
  cases op with
  | fork c thread into pid late => exact h.respects_fork hs
  | rmdir id =>
    obtain ⟨t, hrm, -⟩ := Option.map_eq_some_iff.mp hs
    exact h.respects_rmdir ht hrm
  | mkdir parent name file =>
    obtain ⟨t, hmk, -⟩ := Option.map_eq_some_iff.mp hs
    exact respects_mkdir hmk
  | exit | reap | migrate | refresh | setLimits => trivial

def forkInside : List Op :=
  [.mkdir root "a" false, .migrate 1 1, .fork ⟨1, 1, false⟩ false none 2 false]

theorem cgroups_account_fork :
    ∃ s, Run.exec step forkInside init = some s ∧ (s.tree.nodes 1).map (·.tasks) = some 2 ∧
      ∀ id n, s.tree.nodes id = some n → id ≠ root → n.tasks = (s.within id).length := by
  refine ⟨_, rfl, rfl, (cgroups_account (.of_exec forkInside rfl ?_)).1⟩
  refine ⟨(by decide : 1 + 1 < 2 ^ 32), fun s₁ h₁ => ⟨trivial, fun s₂ h₂ => ⟨?_, fun _ _ => trivial⟩⟩⟩
  cases h₁
  cases h₂
  exact ⟨rfl, by decide⟩

/-- A fork runs out of memory after the charge: the node counts a task that is not there. -/
theorem fork_stays_charged : ∃ s, Run.exec step
      [.mkdir root "a" false, .migrate 1 1, .fork ⟨1, 1, false⟩ false none 2 true] init = some s ∧
      (s.tree.nodes 1).map (·.tasks) = some 2 ∧ (s.within 1).length = 1 :=
  ⟨_, rfl, rfl, rfl⟩

end Sys

end Cgroup

end NixVm
