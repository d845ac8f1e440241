import Mathlib.Data.Nat.Bitwise

/-!
# Capabilities

`nexus/capability.c` over the edges of `nexus/graph.c`. A capability is a value in the hands of
its holder; the rights it stands for are those of an edge. `capability_law_iff` says for which
graphs and values the two agree. Names, types and data of nodes and types of edges play no part
and are left out.
-/

namespace YamKernel.Nexus

open Function

def maxNodes : Nat := 4096
def maxEdges : Nat := 8192
def adjPoolSize : Nat := 16384
def permWrite : Nat := 2
def permDelegate : Nat := 8
def invalid : Nat := 2 ^ 64 - 1

structure Node where
  alive : Bool
  /-- The edges of the cells of `edges_out`, the newest first. -/
  edgesOut : List Nat
  edgesIn : List Nat
  refCount : Nat

structure Edge where
  source : Nat
  target : Nat
  perms : Nat
  generation : Nat
  alive : Bool

structure Graph where
  node : Nat → Node
  edge : Nat → Edge
  nextEdge : Nat
  generation : Nat
  adjPoolNext : Nat

def Graph.setNode (g : Graph) (i : Nat) (n : Node) : Graph := { g with node := update g.node i n }

def yamgraphNodeGet (g : Graph) (id : Nat) : Option Node :=
  if id < maxNodes ∧ (g.node id).alive then some (g.node id) else none

def yamgraphEdgeGet (g : Graph) (id : Nat) : Option Edge :=
  if id < maxEdges ∧ (g.edge id).alive then some (g.edge id) else none

def yamgraphEdgeRevoke (g : Graph) (id : Nat) : Bool × Graph :=
  match yamgraphEdgeGet g id with
  | none => (false, g)
  | some e =>
    let g := { g with edge := update g.edge id { e with alive := false } }
    match yamgraphNodeGet g e.target with
    | none => (true, g)
    | some n => (true, g.setNode e.target { n with refCount := n.refCount - 1 })

/-- `adj_alloc` and, if there is a cell left, what is done with it. -/
def withCell (g : Graph) (i : Nat) (add : Node → Node) : Graph :=
  if adjPoolSize ≤ g.adjPoolNext then g
  else { g.setNode i (add (g.node i)) with adjPoolNext := g.adjPoolNext + 1 }

def yamgraphEdgeLink (g : Graph) (src dst perms : Nat) : Nat × Graph :=
  match yamgraphNodeGet g src, yamgraphNodeGet g dst with
  | some _, some _ =>
    if maxEdges ≤ g.nextEdge then (invalid, g)
    else
      let id := g.nextEdge
      let g := { g with edge := update g.edge id ⟨src, dst, perms, g.generation, true⟩
                        nextEdge := id + 1, generation := g.generation + 1 }
      let g := withCell g src fun n => { n with edgesOut := id :: n.edgesOut }
      let g := withCell g dst fun n => { n with edgesIn := id :: n.edgesIn }
      (id, g.setNode dst { g.node dst with refCount := (g.node dst).refCount + 1 })
  | _, _ => (invalid, g)

/-- The walk over the list `edges_out`; node 0 is the kernel. -/
def yamgraphHasPermission (g : Graph) (src dst perm : Nat) : Bool :=
  match yamgraphNodeGet g src with
  | none => false
  | some n => n.edgesOut.any (fun id => ∃ e ∈ yamgraphEdgeGet g id,
      e.target = dst ∧ e.perms &&& perm = perm) || src = 0

/-- `src` is alive, and it is the kernel or an edge in its list gives it `perm` on `dst`. -/
def Permitted (g : Graph) (src dst perm : Nat) : Prop :=
  ∃ n ∈ yamgraphNodeGet g src, src = 0 ∨ ∃ id ∈ n.edgesOut, ∃ e ∈ yamgraphEdgeGet g id,
    e.target = dst ∧ e.perms &&& perm = perm

lemma hasPermission_iff (g : Graph) (src dst perm : Nat) :
    yamgraphHasPermission g src dst perm = true ↔ Permitted g src dst perm := by
  unfold yamgraphHasPermission Permitted
  cases yamgraphNodeGet g src with
  | none => simp
  | some n => simp [or_comm]

structure Capability where
  edgeId : Nat
  holder : Nat
  target : Nat
  perms : Nat
  generation : Nat

def capCreate (g : Graph) (holder target perms : Nat) : Capability × Graph :=
  let (id, g) := yamgraphEdgeLink g holder target perms
  if id = invalid then (⟨invalid, 0, 0, 0, 0⟩, g)
  else (⟨id, holder, target, perms, (yamgraphEdgeGet g id).elim 0 Edge.generation⟩, g)

def capDelegate (g : Graph) (cap : Capability) (newHolder mask : Nat) : Capability × Graph :=
  if cap.perms &&& permDelegate = 0 then (⟨invalid, 0, 0, 0, 0⟩, g)
  else capCreate g newHolder cap.target (cap.perms &&& mask)

def capIsValid (g : Graph) (cap : Capability) : Bool :=
  cap.edgeId ≠ invalid ∧ ∃ e ∈ yamgraphEdgeGet g cap.edgeId, e.generation = cap.generation

def capRevoke (g : Graph) (cap : Capability) : Bool × Graph :=
  if capIsValid g cap then yamgraphEdgeRevoke g cap.edgeId else (false, g)

def capCheck (g : Graph) (cap : Capability) (perm : Nat) : Bool :=
  capIsValid g cap ∧ cap.perms &&& perm = perm

/-- Some edge that is alive gives `s` all the bits of `p` on `t`. -/
def Holds (g : Graph) (s t p : Nat) : Prop :=
  ∃ id, ∃ e ∈ yamgraphEdgeGet g id, e.source = s ∧ e.target = t ∧ e.perms &&& p = p

/-- A check succeeds only for rights that the holder has, and a delegation makes an edge only for
a valid capability whose holder may delegate, with no bit that the holder does not have. -/
def CapLaw (g : Graph) (cap : Capability) : Prop :=
  (∀ p, capCheck g cap p → Holds g cap.holder cap.target p) ∧
  ∀ newHolder mask e,
    yamgraphEdgeGet (capDelegate g cap newHolder mask).2
      (capDelegate g cap newHolder mask).1.edgeId = some e →
    capIsValid g cap ∧ Holds g cap.holder cap.target permDelegate ∧
      ∀ i, e.perms.testBit i → Holds g cap.holder cap.target (2 ^ i)

def Links (g : Graph) (src dst : Nat) : Prop :=
  yamgraphNodeGet g src ≠ none ∧ yamgraphNodeGet g dst ≠ none ∧ g.nextEdge < maxEdges

def Delegable (g : Graph) (cap : Capability) : Prop :=
  cap.perms &&& permDelegate ≠ 0 ∧ Links g cap.target cap.target

variable {g : Graph} {cap : Capability} {s t p q : Nat}

lemma Holds.mono (h : Holds g s t q) (hp : q &&& p = p) : Holds g s t p := by
  obtain ⟨id, e, he, hs, ht, hq⟩ := h
  refine ⟨id, e, he, hs, ht, ?_⟩
  rw [← hp, ← Nat.and_assoc, hq]

lemma and_bit {i : Nat} (h : q.testBit i) : q &&& 2 ^ i = 2 ^ i := by
  simp [Nat.and_two_pow, h]

@[simp] lemma withCell_edge (g : Graph) (i : Nat) (add : Node → Node) :
    (withCell g i add).edge = g.edge := by
  unfold withCell
  split_ifs <;> rfl

lemma edgeGet_invalid (g : Graph) : yamgraphEdgeGet g invalid = none :=
  if_neg fun h => absurd h.1 (by decide)

lemma edgeLink_spec (g : Graph) (src dst perms : Nat) :
    ¬ Links g src dst ∧ (yamgraphEdgeLink g src dst perms).1 = invalid ∨
    Links g src dst ∧ (yamgraphEdgeLink g src dst perms).1 ≠ invalid ∧
      yamgraphEdgeGet (yamgraphEdgeLink g src dst perms).2
        (yamgraphEdgeLink g src dst perms).1 = some ⟨src, dst, perms, g.generation, true⟩ := by
  have hid : ∀ i < maxEdges, i ≠ invalid := fun i hi h => absurd (h ▸ hi) (by decide)
  unfold yamgraphEdgeLink Links
  cases yamgraphNodeGet g src <;> cases yamgraphNodeGet g dst <;> simp
  split_ifs with hfull
  · exact .inl ⟨hfull, rfl⟩
  · have hroom := Nat.lt_of_not_le hfull
    refine .inr ⟨hroom, hid _ hroom, ?_⟩
    simp [yamgraphEdgeGet, Graph.setNode, hroom]

/-- The edge of a delegation comes from the value alone. -/
lemma capDelegate_edge (g : Graph) (cap : Capability) (h mask : Nat) (e : Edge) :
    yamgraphEdgeGet (capDelegate g cap h mask).2 (capDelegate g cap h mask).1.edgeId = some e ↔
      cap.perms &&& permDelegate ≠ 0 ∧ Links g h cap.target ∧
        e = ⟨h, cap.target, cap.perms &&& mask, g.generation, true⟩ := by
  unfold capDelegate
  split_ifs with hp
  · simp [edgeGet_invalid, hp]
  · obtain ⟨hno, hid⟩ | ⟨hyes, hid, he⟩ := edgeLink_spec g h cap.target (cap.perms &&& mask)
    · simp [capCreate, hid, hno, edgeGet_invalid]
    · simp [capCreate, hid, hyes, he, hp, eq_comm]

theorem capability_law_iff (g : Graph) (cap : Capability) :
    CapLaw g cap ↔ (capIsValid g cap → Holds g cap.holder cap.target cap.perms) ∧
      (Delegable g cap → capIsValid g cap) := by
  constructor
  · intro h
    refine ⟨fun hv => h.1 _ (by simp [capCheck, hv]), fun hd => ?_⟩
    exact (h.2 cap.target 0 _ ((capDelegate_edge ..).2 ⟨hd.1, hd.2, rfl⟩)).1
  · rintro ⟨hheld, hvalid⟩
    refine ⟨fun p hp => ?_, fun newHolder mask e he => ?_⟩
    · simp only [capCheck, decide_eq_true_eq] at hp
      exact (hheld hp.1).mono hp.2
    · obtain ⟨hp, hl, rfl⟩ := (capDelegate_edge ..).1 he
      have hd : Delegable g cap := ⟨hp, hl.2.1, hl.2⟩
      have held := hheld (hvalid hd)
      have hbit : cap.perms.testBit 3 := by
        rw [show permDelegate = 2 ^ 3 from rfl, Nat.and_two_pow] at hp
        simp_all
      refine ⟨hvalid hd, held.mono (and_bit hbit), fun i hi => held.mono (and_bit ?_)⟩
      simp_all

/-- Three nodes, and a capability of node 1 on node 2. -/
def granted (perms : Nat) : Capability × Graph :=
  capCreate ⟨fun i => ⟨i < 3, [], [], 1⟩, fun _ => ⟨0, 0, 0, 0, false⟩, 1, 1, 0⟩ 1 2 perms

/-- Writing is checked in the value that its holder altered, and a revoked value delegates. -/
theorem altered_and_revoked :
    ¬ CapLaw (granted 1).2 { (granted 1).1 with perms := 2 } ∧
    ¬ CapLaw (capRevoke (granted 9).2 (granted 9).1).2 (granted 9).1 := by
  constructor
  · intro h
    obtain ⟨id, e, he, -, -, hp⟩ := h.1 2 (by decide)
    have : (granted 1).2.edge =
      update (fun _ => ⟨0, 0, 0, 0, false⟩) 1 ⟨1, 2, 1, 1, true⟩ := rfl
    by_cases id = 1 <;> simp_all [yamgraphEdgeGet]
    exact absurd (he.2 ▸ hp) (by decide)
  · intro h
    exact absurd (h.2 0 1 ⟨0, 2, 1, 2, true⟩ rfl).1 (by decide)

end YamKernel.Nexus
