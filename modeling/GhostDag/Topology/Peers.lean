import GhostDag.Lib.Containers
import GhostDag.Topology.Helper

/-!
# GhostDag.Topology.Peers

The peer selection always ends, and leaves a simple graph within the limits.

A candidate leaves `nodes` only when it reaches its maximum, and a node draws
only below its minimum.  So the node that draws is a candidate itself, and
`nodes` is not empty (`Growing.exists_draw`).
-/

namespace GhostDag

open Containers

/-- What the constructor leaves behind. -/
structure GhostDagTopology.WellFormed (t : GhostDagTopology) (noMiners : Nat)
    (limits : ConnectionLimits) : Prop where
  simple : Adjacency.Simple t.nodesConnections
  /-- Only nodes are connected. -/
  lt : ∀ a, ∀ b ∈ t.nodesConnections a, a < t.totalNoNodes ∧ b < t.totalNoNodes
  length_miners : t.miners.length = noMiners
  nodup_miners : t.miners.Nodup
  miners_lt : ∀ m ∈ t.miners, m < t.totalNoNodes
  /-- The miners are connected with each other. -/
  miners_connected : ∀ a ∈ t.miners, ∀ b ∈ t.miners, a ≠ b → b ∈ t.nodesConnections a
  /-- The other miners are the first neighbours of a miner. -/
  miners_first : ∀ m ∈ t.miners, ∀ b,
    b ∈ (t.nodesConnections m).take (t.miners.length - 1) ↔ b ∈ t.miners ∧ b ≠ m
  degree_node : ∀ a ∉ t.miners, (t.nodesConnections a).length ≤ limits.maxConnections a
  degree_miner : ∀ m ∈ t.miners,
    noMiners - 1 ≤ (t.nodesConnections m).length ∧
      (t.nodesConnections m).length ≤ max (limits.maxConnections m) (noMiners - 1)

/-! ## miners -/

/-- **Distinct miners** are drawn out of enough nodes. -/
theorem exists_chooseMiners (rand : ℕ → ℕ) {noMiners : ℕ} {nodes : List ℕ} (hnd : nodes.Nodup)
    (hle : noMiners ≤ nodes.length) (draws : ℕ) :
    ∃ miners, chooseMiners rand noMiners nodes draws = some miners ∧
      miners.length = noMiners ∧ miners.Nodup ∧ ∀ m ∈ miners, m ∈ nodes := by
  induction noMiners generalizing nodes draws with
  | zero => exact ⟨[], rfl, rfl, List.nodup_nil, fun m hm => absurd hm List.not_mem_nil⟩
  | succ noMiners ih =>
      have hpos : 0 < nodes.length := by omega
      have hlt : rand draws % nodes.length < nodes.length := Nat.mod_lt _ hpos
      have hperm := List.getElem_cons_eraseIdx_perm hlt
      obtain ⟨hnew, hrest⟩ := List.nodup_cons.mp (hperm.nodup_iff.mpr hnd)
      obtain ⟨miners, hrun, hlen, hminers, hsub⟩ := ih hrest
        (by rw [List.length_eraseIdx_of_lt hlt]; omega) (draws + 1)
      refine ⟨nodes[rand draws % nodes.length] :: miners, ?_, by rw [List.length_cons, hlen], ?_, ?_⟩
      · rw [chooseMiners, if_neg (by omega)]
        dsimp only
        rw [hrun, List.getD_eq_getElem _ _ hlt]
        rfl
      · exact List.nodup_cons.mpr ⟨fun hmem => hnew (hsub _ hmem), hminers⟩
      · intro m hm
        refine hperm.mem_iff.mp ?_
        obtain rfl | hm := List.mem_cons.mp hm
        · exact List.mem_cons_self
        · exact List.mem_cons_of_mem _ (hsub m hm)

/-- The other miners, for a miner. -/
def meshOf (miners : List ℕ) (a : ℕ) : List ℕ :=
  if a ∈ miners then miners.filter (a ≠ ·) else []

/-- **The miners are connected with each other**, and with nobody else yet. -/
theorem interconnect_eq {miners : List ℕ} (hnd : miners.Nodup) :
    interconnect miners = meshOf miners := by
  have hinner : ∀ (l : List ℕ) (adj : ℕ → List ℕ) (miner a : ℕ),
      l.foldl (fun adj peer => if miner ≠ peer then Adjacency.push adj miner peer else adj) adj a =
        if a = miner then adj a ++ l.filter (miner ≠ ·) else adj a := by
    intro l
    induction l with
    | nil => intro adj miner a; simp
    | cons peer l ih =>
        intro adj miner a
        rw [List.foldl_cons, ih]
        by_cases hne : miner ≠ peer
        · rw [if_pos hne, List.filter_cons_of_pos (by simpa using hne), Adjacency.push_apply]
          split
          · next heq => rw [heq, List.append_assoc, List.singleton_append]
          · rfl
        · rw [if_neg hne, List.filter_cons_of_neg (by simpa using hne)]
  have houter : ∀ (l : List ℕ) (adj : ℕ → List ℕ) (a : ℕ), l.Nodup →
      l.foldl (fun adj miner => miners.foldl (fun adj peer =>
          if miner ≠ peer then Adjacency.push adj miner peer else adj) adj) adj a =
        adj a ++ if a ∈ l then miners.filter (a ≠ ·) else [] := by
    intro l
    induction l with
    | nil => intro adj a _; simp
    | cons miner l ih =>
        intro adj a hl
        obtain ⟨hminer, hl⟩ := List.nodup_cons.mp hl
        rw [List.foldl_cons, ih _ a hl, hinner]
        by_cases ha : a = miner
        · subst ha
          simp [hminer]
        · simp [ha]
  funext a
  exact houter miners (fun _ => []) a hnd

theorem mem_meshOf {miners : List ℕ} {a b : ℕ} :
    b ∈ meshOf miners a ↔ a ∈ miners ∧ b ∈ miners ∧ b ≠ a := by
  rw [meshOf]
  split
  · next ha => rw [List.mem_filter, decide_eq_true_eq, ne_comm, and_iff_right ha]
  · next ha => exact iff_of_false List.not_mem_nil fun h => ha h.1

theorem nodup_meshOf {miners : List ℕ} (hnd : miners.Nodup) (a : ℕ) : (meshOf miners a).Nodup := by
  rw [meshOf]
  split
  · exact hnd.filter _
  · exact List.nodup_nil

theorem length_meshOf {miners : List ℕ} (hnd : miners.Nodup) {a : ℕ} (ha : a ∈ miners) :
    (meshOf miners a).length = miners.length - 1 := by
  have herase : miners.filter (a ≠ ·) = miners.erase a := by
    rw [hnd.erase_eq_filter]
    refine List.filter_congr fun b _ => ?_
    rw [bne, Bool.eq_iff_iff, decide_eq_true_eq, Bool.not_eq_true', beq_eq_false_iff_ne, ne_comm]
  rw [meshOf, if_pos ha, herase, List.length_erase_of_mem ha]

theorem simple_meshOf {miners : List ℕ} (hnd : miners.Nodup) : Adjacency.Simple (meshOf miners) where
  symm a b hb := by
    obtain ⟨ha, hb, hne⟩ := mem_meshOf.mp hb
    exact mem_meshOf.mpr ⟨hb, ha, hne.symm⟩
  irrefl a ha := (mem_meshOf.mp ha).2.2 rfl
  nodup := nodup_meshOf hnd

/-! ## peers -/

namespace PeerSelection

variable {limits : ConnectionLimits} {rand : ℕ → ℕ} {totalNoNodes : ℕ} {mesh : ℕ → List ℕ} {i : ℕ}
  {s s' : PeerSelection}

/-- What holds while the nodes draw their peers, from the connections `mesh`
on. -/
structure Growing (limits : ConnectionLimits) (totalNoNodes : ℕ) (mesh : ℕ → List ℕ)
    (s : PeerSelection) : Prop where
  simple : Adjacency.Simple s.nodesConnections
  lt : ∀ a, ∀ b ∈ s.nodesConnections a, a < totalNoNodes ∧ b < totalNoNodes
  mesh_prefix : ∀ a, mesh a <+: s.nodesConnections a
  degree : ∀ a, (s.nodesConnections a).length ≤ max (limits.maxConnections a) (mesh a).length
  nodes_lt : ∀ a ∈ s.nodes, a < totalNoNodes
  /-- A node below its maximum is still a candidate. -/
  candidate : ∀ a < totalNoNodes,
    (s.nodesConnections a).length < limits.maxConnections a → a ∈ s.nodes

/-- A draw has connected `i` to the candidate `c`, which stays a candidate
unless it is saturated now. -/
structure Connects (limits : ConnectionLimits) (i c : ℕ) (s s' : PeerSelection) : Prop where
  mem : c ∈ s.nodes
  ne : i ≠ c
  notMem : c ∉ s.nodesConnections i
  room : (s.nodesConnections c).length < limits.maxConnections c
  nodesConnections : s'.nodesConnections = Adjacency.connect s.nodesConnections i c
  sub : ∀ a ∈ s'.nodes, a ∈ s.nodes
  keeps : ∀ a ∈ s.nodes, a ∉ s'.nodes →
    a = c ∧ limits.maxConnections c ≤ (s'.nodesConnections c).length

/-- **What a draw can do**, while there are candidates. -/
theorem exists_draw (limits : ConnectionLimits) (rand : ℕ → ℕ) (i : ℕ) (hne : s.nodes ≠ []) :
    ∃ s', s.draw limits rand i = some s' ∧
      ((s'.nodes = s.nodes ∧ s'.nodesConnections = s.nodesConnections) ∨
        ∃ c, Connects limits i c s s') := by
  have hpos : 0 < s.nodes.length := List.length_pos_iff.mpr hne
  have hlt : rand s.draws % s.nodes.length < s.nodes.length := Nat.mod_lt _ hpos
  rw [draw, if_neg hpos.ne']
  dsimp only
  rw [List.getD_eq_getElem _ _ hlt]
  set index := rand s.draws % s.nodes.length
  split
  · exact ⟨_, rfl, .inl ⟨rfl, rfl⟩⟩
  · next hci =>
      split
      · exact ⟨_, rfl, .inl ⟨rfl, rfl⟩⟩
      · next hnew =>
          split
          · exact ⟨_, rfl, .inl ⟨rfl, rfl⟩⟩
          · next hroom =>
              have hroom := not_le.mp hroom
              split
              · next hfull =>
                  refine ⟨_, rfl, .inr ⟨s.nodes[index], List.getElem_mem hlt, Ne.symm hci, hnew,
                    hroom, rfl, fun a ha => List.mem_of_mem_eraseIdx ha, fun a ha hgone => ?_⟩⟩
                  have hperm := List.getElem_cons_eraseIdx_perm hlt
                  exact ⟨(List.mem_cons.mp (hperm.mem_iff.mpr ha)).resolve_right hgone, hfull.ge⟩
              · exact ⟨_, rfl, .inr ⟨s.nodes[index], List.getElem_mem hlt, Ne.symm hci, hnew, hroom,
                  rfl, fun a ha => ha, fun a ha hgone => absurd ha hgone⟩⟩

/-- **A connection** keeps the graph within the limits. -/
theorem Growing.connects {c : ℕ} (h : Growing limits totalNoNodes mesh s) (hi : i < totalNoNodes)
    (hlow : (s.nodesConnections i).length < limits.minConnections i)
    (hc : Connects limits i c s s') : Growing limits totalNoNodes mesh s' := by
  have hroom : ∀ a, a = i ∨ a = c →
      (s.nodesConnections a).length < limits.maxConnections a := by
    rintro a (rfl | rfl)
    · exact hlow.trans_le (limits.le a)
    · exact hc.room
  have hless : ∀ a, (s.nodesConnections a).length ≤ (s'.nodesConnections a).length := fun a => by
    rw [hc.nodesConnections]
    exact (Adjacency.prefix_connect hc.ne a).length_le
  constructor
  case simple => exact hc.nodesConnections ▸ h.simple.connect hc.ne hc.notMem
  case lt =>
    intro a b hb
    rw [hc.nodesConnections, Adjacency.mem_connect hc.ne] at hb
    have hclt := h.nodes_lt c hc.mem
    rcases hb with hb | ⟨rfl, rfl⟩ | ⟨rfl, rfl⟩
    · exact h.lt a b hb
    · exact ⟨hi, hclt⟩
    · exact ⟨hclt, hi⟩
  case mesh_prefix =>
    intro a
    rw [hc.nodesConnections]
    exact (h.mesh_prefix a).trans (Adjacency.prefix_connect hc.ne a)
  case degree =>
    intro a
    have hdegree := h.degree a
    rw [hc.nodesConnections]
    by_cases ha : a = i
    · have hlt := hroom a (.inl ha)
      rw [ha, Adjacency.connect_left hc.ne, List.length_append, List.length_singleton, ← ha]
      omega
    · by_cases hac : a = c
      · have hlt := hroom a (.inr hac)
        rw [hac, Adjacency.connect_right hc.ne, List.length_append, List.length_singleton, ← hac]
        omega
      · rwa [Adjacency.connect_of_ne ha hac]
  case nodes_lt => exact fun a ha => h.nodes_lt a (hc.sub a ha)
  case candidate =>
    intro a ha hlt
    by_contra hgone
    obtain ⟨rfl, hfull⟩ := hc.keeps a (h.candidate a ha ((hless a).trans_lt hlt)) hgone
    exact absurd hlt (not_lt.mpr hfull)

/-- **A node that is below its minimum can draw.** -/
theorem Growing.exists_draw (h : Growing limits totalNoNodes mesh s) (hi : i < totalNoNodes)
    (hlow : (s.nodesConnections i).length < limits.minConnections i) (rand : ℕ → ℕ) :
    ∃ s', s.draw limits rand i = some s' ∧ Growing limits totalNoNodes mesh s' := by
  -- it is a candidate itself
  have hmem : i ∈ s.nodes := h.candidate i hi (hlow.trans_le (limits.le i))
  obtain ⟨s', hrun, ⟨hnodes, hconn⟩ | ⟨c, hc⟩⟩ :=
    PeerSelection.exists_draw limits rand i (List.ne_nil_of_mem hmem)
  · refine ⟨s', hrun, ?_⟩
    constructor
    · exact hconn ▸ h.simple
    · exact hconn ▸ h.lt
    · exact hconn ▸ h.mesh_prefix
    · exact hconn ▸ h.degree
    · exact hnodes ▸ h.nodes_lt
    · exact hnodes ▸ hconn ▸ h.candidate
  · exact ⟨s', hrun, h.connects hi hlow hc⟩

theorem Growing.exists_drawPeers (h : Growing limits totalNoNodes mesh s) (hi : i < totalNoNodes)
    (rand : ℕ → ℕ) (left : ℕ) :
    ∃ s', s.drawPeers limits rand i left = some s' ∧ Growing limits totalNoNodes mesh s' := by
  induction left generalizing s with
  | zero => exact ⟨s, rfl, h⟩
  | succ left ih =>
      rw [drawPeers]
      split
      · next hlow =>
          obtain ⟨s₁, hrun, h₁⟩ := h.exists_draw hi hlow rand
          rw [hrun]
          exact ih h₁
      · exact ⟨s, rfl, h⟩

/-- **All nodes find their peers.** -/
theorem Growing.exists_selectPeers (h : Growing limits totalNoNodes mesh s) (rand : ℕ → ℕ)
    {miners : List ℕ} (hminers : ∀ m ∈ miners, m < totalNoNodes) :
    ∃ s', s.selectPeers limits rand totalNoNodes miners = some s' ∧
      Growing limits totalNoNodes mesh s' := by
  obtain ⟨s₁, hrun, h₁⟩ := exists_foldlM (f := peersOf limits rand) (l := miners)
    (fun i hi _ hs => hs.exists_drawPeers (hminers i hi) rand (limits.maxDraws i)) h
  obtain ⟨s', hrest, h'⟩ := exists_foldlM (f := peersOf limits rand) (l := List.range totalNoNodes)
    (fun i hi _ hs => hs.exists_drawPeers (List.mem_range.mp hi) rand (limits.maxDraws i)) h₁
  refine ⟨s', ?_, h'⟩
  rw [selectPeers, hrun]
  exact hrest

end PeerSelection

/-! ## the constructor -/

/-- **The peer selection ends.**  No remainder modulo an empty vector is taken
on the way. -/
theorem exists_growing {totalNoNodes noMiners : ℕ} (hpos : 1 ≤ noMiners)
    (hle : noMiners ≤ totalNoNodes) (limits : List ℕ → ConnectionLimits) (rand : ℕ → ℕ) :
    ∃ miners s, connectNodes totalNoNodes noMiners limits rand =
        some { totalNoNodes, miners, nodesConnections := s.nodesConnections } ∧
      miners.length = noMiners ∧ miners.Nodup ∧ (∀ m ∈ miners, m < totalNoNodes) ∧
      PeerSelection.Growing (limits miners) totalNoNodes (meshOf miners) s := by
  obtain ⟨chosen, hchoose, hlen, hnd, hsub⟩ := exists_chooseMiners rand
    (List.nodup_range (n := totalNoNodes)) (hle.trans_eq List.length_range.symm) 0
  set miners := chosen.insertionSort (· ≤ ·) with hminers
  have hperm : miners.Perm chosen := List.perm_insertionSort _ _
  have hnd : miners.Nodup := hperm.nodup_iff.mpr hnd
  have hlt : ∀ m ∈ miners, m < totalNoNodes :=
    fun m hm => List.mem_range.mp (hsub m (hperm.mem_iff.mp hm))
  have hstart : PeerSelection.Growing (limits miners) totalNoNodes (meshOf miners)
      { nodes := List.range totalNoNodes, nodesConnections := interconnect miners
        draws := noMiners } := by
    rw [interconnect_eq hnd]
    constructor
    case simple => exact simple_meshOf hnd
    case lt =>
      intro a b hb
      obtain ⟨ha, hb, -⟩ := mem_meshOf.mp hb
      exact ⟨hlt a ha, hlt b hb⟩
    case mesh_prefix => exact fun a => List.prefix_rfl
    case degree => exact fun a => le_max_right _ _
    case nodes_lt => exact fun a ha => List.mem_range.mp ha
    case candidate => exact fun a ha _ => List.mem_range.mpr ha
  obtain ⟨s, hselect, hs⟩ := hstart.exists_selectPeers rand hlt
  refine ⟨miners, s, ?_, hperm.length_eq.trans hlen, hnd, hlt, hs⟩
  rw [connectNodes, if_neg (by omega), hchoose]
  dsimp only [Option.bind_eq_bind, Option.bind_some]
  rw [← hminers, hselect]
  rfl

/-- What grew from the connections between the miners is well formed. -/
theorem PeerSelection.Growing.wellFormed {totalNoNodes noMiners : ℕ} {limits : ConnectionLimits}
    {miners : List ℕ} {s : PeerSelection}
    (hs : PeerSelection.Growing limits totalNoNodes (meshOf miners) s)
    (hlen : miners.length = noMiners) (hnd : miners.Nodup) (hlt : ∀ m ∈ miners, m < totalNoNodes) :
    GhostDagTopology.WellFormed { totalNoNodes, miners, nodesConnections := s.nodesConnections }
      noMiners limits := by
  have hmesh : ∀ m ∈ miners, (meshOf miners m).length = noMiners - 1 :=
    fun m hm => hlen ▸ length_meshOf hnd hm
  constructor
  case simple => exact hs.simple
  case lt => exact hs.lt
  case length_miners => exact hlen
  case nodup_miners => exact hnd
  case miners_lt => exact hlt
  case miners_connected =>
    intro a ha b hb hne
    exact (hs.mesh_prefix a).subset (mem_meshOf.mpr ⟨ha, hb, hne.symm⟩)
  case miners_first =>
    intro m hm b
    have htake : (s.nodesConnections m).take (miners.length - 1) = meshOf miners m := by
      rw [← length_meshOf hnd hm]
      exact (List.prefix_iff_eq_take.mp (hs.mesh_prefix m)).symm
    rw [htake, mem_meshOf]
    exact and_iff_right hm
  case degree_node =>
    intro a ha
    have hdegree := hs.degree a
    rwa [meshOf, if_neg ha, List.length_nil, Nat.max_zero] at hdegree
  case degree_miner =>
    intro m hm
    have hdegree := hs.degree m
    rw [hmesh m hm] at hdegree
    exact ⟨hmesh m hm ▸ (hs.mesh_prefix m).length_le, hdegree⟩

/-- **The connections are always made, and well formed.** -/
theorem exists_connectNodes {totalNoNodes noMiners : ℕ} (hpos : 1 ≤ noMiners)
    (hle : noMiners ≤ totalNoNodes) (limits : List ℕ → ConnectionLimits) (rand : ℕ → ℕ) :
    ∃ t, connectNodes totalNoNodes noMiners limits rand = some t ∧
      t.totalNoNodes = totalNoNodes ∧ t.WellFormed noMiners (limits t.miners) := by
  obtain ⟨miners, s, hrun, hlen, hnd, hlt, hs⟩ := exists_growing hpos hle limits rand
  exact ⟨_, hrun, rfl, hs.wellFormed hlen hnd hlt⟩

/-- Three nodes, two of them miners, and one peer for the third. -/
theorem exists_connectNodes_three :
    ∃ t, connectNodes 3 2 (LimitArgs.limits ⟨1, 2, by decide, fun _ => 0, fun _ => 0⟩)
        (fun _ => 7) = some t ∧ t.totalNoNodes = 3 ∧
      t.WellFormed 2 (LimitArgs.limits ⟨1, 2, by decide, fun _ => 0, fun _ => 0⟩ t.miners) :=
  exists_connectNodes (by decide) (by decide) _ _

end GhostDag
