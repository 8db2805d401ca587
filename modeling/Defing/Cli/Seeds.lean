import Mathlib.Data.List.Perm.Basic
import Defing.Api.DataPlane

/-!
# Seed lists

The members of a new cluster, as every node is started with them. An accepted
list names each member once, in any order, and no text of an address twice;
two texts of one address are told apart by what is written, not by the port it
stands for.
-/

namespace Defing

open Std (ExtTreeMap)

structure RaftNodeInfo where
  grpcAddr : String
  httpAddr : String
  raftAddr : String
  deriving DecidableEq, Repr

def u64Max : Nat := 2 ^ 64 - 1

/-! ## The parser -/

/-- `host:port` with a port number from 1 on and a host that is no wildcard. -/
def validateSeedAddr (label addr : String) (idx : Nat) : Except String Unit :=
  let err (msg : String) : Except String Unit := .error s!"--bootstrap-peers 第 {idx} 项 {label} {msg}: {addr}"
  match splitAt ':' addr with
  | [host, port] =>
    if host = "" ∨ host = "0.0.0.0" ∨ host = "::" then
      err "host 不能为不可路由通配地址（0.0.0.0/::；容器内请用服务名或具体 IP，见坑 C1）"
    else
      match parseUnsigned 65535 port with
      | none => err "端口须为 1-65535 的数值"
      | some portNum => if portNum = 0 then err "端口不能为 0" else .ok ()
  | _ => err "须为 host:port 形式（暂不支持 IPv6 字面量）"

structure SeedState where
  map : ExtTreeMap Nat RaftNodeInfo
  seenRaft : List String
  seenHttp : List String

def seedParts (entry : String) (idx : Nat) : Except String (String × String × String) :=
  match splitAt '@' entry with
  | [id, raft, http] => .ok (id, raft, http)
  | [_, _] => .error s!"--bootstrap-peers 第 {idx} 项缺少 http_addr（必须为 node_id@raft_addr@http_addr 三段式；http_addr 用于 leader 重定向/join 跟随）: {entry}"
  | _ => .error s!"--bootstrap-peers 第 {idx} 项格式错误（应为 node_id@raft_addr@http_addr）: {entry}"

def seedId (idStr : String) (idx : Nat) : Except String Nat :=
  match parseUnsigned u64Max (trim idStr) with
  | none => .error s!"--bootstrap-peers 第 {idx} 项 node_id 非法: {idStr}"
  | some nodeId => if nodeId = 0 then .error s!"--bootstrap-peers 第 {idx} 项 node_id 不能为 0" else .ok nodeId

def addSeed (st : SeedState) (nodeId : Nat) (raft http : String) (idx : Nat) : Except String SeedState :=
  if raft ∈ st.seenRaft then
    .error s!"--bootstrap-peers 第 {idx} 项 raft_addr 重复: {raft}（两个节点不能共用同一 raft 地址）"
  else if http ∈ st.seenHttp then .error s!"--bootstrap-peers 第 {idx} 项 http_addr 重复: {http}"
  else if nodeId ∈ st.map then .error s!"--bootstrap-peers 第 {idx} 项 node_id 重复: {nodeId}"
  else .ok
    { map := st.map.insert nodeId { grpcAddr := "", httpAddr := http, raftAddr := raft }
      seenRaft := raft :: st.seenRaft
      seenHttp := http :: st.seenHttp }

/-- The body of the loop of `parse_bootstrap_peers`. -/
def seedStep (st : SeedState) (e : String × Nat) : Except String SeedState :=
  let entry := trim e.1
  if entry = "" then .ok st
  else do
    let (idStr, raft, http) ← seedParts entry e.2
    let nodeId ← seedId idStr e.2
    validateSeedAddr "raft_addr" raft e.2
    validateSeedAddr "http_addr" http e.2
    addSeed st nodeId raft http e.2

def parseBootstrapPeers (raw : String) : Except String (ExtTreeMap Nat RaftNodeInfo) := do
  let st ← ((splitAt ',' raw).zipIdx 1).foldlM seedStep { map := ∅, seenRaft := [], seenHttp := [] }
  if st.map.isEmpty then .error "--bootstrap-peers 为空（须包含集群全部节点）" else .ok st.map

def validateBootstrapPeers (map : ExtTreeMap Nat RaftNodeInfo) (nodeId : Nat) (raftAddr httpAddr : String) : Except String Unit :=
  match map[nodeId]? with
  | none => .error s!"--bootstrap-peers 不含本节点 node_id={nodeId}（seed map 必须包含集群全部节点）"
  | some node =>
    if node.raftAddr ≠ raftAddr then
      .error s!"--bootstrap-peers 中本节点 raft_addr({node.raftAddr}) 与 --raft-addr({raftAddr}) 不一致"
    else if node.httpAddr ≠ httpAddr then
      .error s!"--bootstrap-peers 中本节点 http_addr({node.httpAddr}) 与 --http-addr({httpAddr}) 不一致"
    else .ok ()

def seedOf (raw : String) (nodeId : Nat) (raftAddr httpAddr : String) : Except String (ExtTreeMap Nat RaftNodeInfo) := do
  let seed ← parseBootstrapPeers raw
  validateBootstrapPeers seed nodeId raftAddr httpAddr
  pure seed

/-! ## Entries -/

/-- The host and the port number that an address stands for. -/
def addrOf (addr : String) : Option (String × Nat) :=
  match splitAt ':' addr with
  | [host, port] =>
    if host = "" ∨ host = "0.0.0.0" ∨ host = "::" then none
    else (parseUnsigned 65535 port).bind fun portNum => if portNum = 0 then none else some (host, portNum)
  | _ => none

structure Seed where
  nodeId : Nat
  raft : String
  http : String

def Seed.info (s : Seed) : RaftNodeInfo := { grpcAddr := "", httpAddr := s.http, raftAddr := s.raft }

structure Reads (entry : String) (s : Seed) : Prop where
  parts : ∃ idStr, splitAt '@' entry = [idStr, s.raft, s.http] ∧ parseUnsigned u64Max (trim idStr) = some s.nodeId
  nonzero : s.nodeId ≠ 0
  raft : addrOf s.raft ≠ none
  http : addrOf s.http ≠ none

def entriesOf (raw : String) : List String := ((splitAt ',' raw).map trim).filter (· ≠ "")

/-- The members, no two of one id or of one text of an address. -/
structure Distinct (seeds : List Seed) : Prop where
  ids : (seeds.map (·.nodeId)).Nodup
  rafts : (seeds.map (·.raft)).Nodup
  https : (seeds.map (·.http)).Nodup

variable {raw raw' : String} {map map' : ExtTreeMap Nat RaftNodeInfo} {st st' : SeedState} {e : String × Nat}
  {seeds seeds' : List Seed}

theorem validateSeedAddr_ok {label addr : String} {idx : Nat} : validateSeedAddr label addr idx = .ok () ↔ addrOf addr ≠ none := by
  unfold validateSeedAddr addrOf
  split
  · rename_i host port hparts
    dsimp only
    by_cases hhost : host = "" ∨ host = "0.0.0.0" ∨ host = "::"
    · simp [hhost]
    · rw [if_neg hhost, if_neg hhost]
      cases parseUnsigned 65535 port with
      | none => simp
      | some portNum =>
        by_cases hz : portNum = 0
        · simp [hz]
        · simp [hz]
  · simp

theorem seedParts_ok {entry : String} {idx : Nat} {p : String × String × String} :
    seedParts entry idx = .ok p ↔ splitAt '@' entry = [p.1, p.2.1, p.2.2] := by
  unfold seedParts
  split
  · rename_i hparts
    rw [hparts]
    constructor
    · intro h
      cases h
      rfl
    · intro h
      obtain ⟨p₁, p₂, p₃⟩ := p
      simp only [List.cons.injEq, and_true] at h
      obtain ⟨rfl, rfl, rfl⟩ := h
      rfl
  · rename_i hparts
    simp [hparts]
  · rename_i hparts _
    constructor
    · intro h
      cases h
    · intro h
      exact absurd h (hparts _ _ _)

theorem seedId_ok {idStr : String} {idx n : Nat} : seedId idStr idx = .ok n ↔ parseUnsigned u64Max (trim idStr) = some n ∧ n ≠ 0 := by
  unfold seedId
  cases parseUnsigned u64Max (trim idStr) with
  | none => simp
  | some m =>
    dsimp only
    by_cases hm : m = 0
    · subst hm
      simp [eq_comm]
    · rw [if_neg hm]
      constructor
      · intro h
        cases h
        exact ⟨rfl, hm⟩
      · intro h
        rw [Option.some.injEq] at h
        rw [h.1]

theorem addSeed_ok {n idx : Nat} {raft http : String} : addSeed st n raft http idx = .ok st' ↔
    raft ∉ st.seenRaft ∧ http ∉ st.seenHttp ∧ n ∉ st.map ∧
      st' = { map := st.map.insert n { grpcAddr := "", httpAddr := http, raftAddr := raft }
              seenRaft := raft :: st.seenRaft
              seenHttp := http :: st.seenHttp } := by
  unfold addSeed
  by_cases hraft : raft ∈ st.seenRaft
  · simp [hraft]
  · rw [if_neg hraft]
    by_cases hhttp : http ∈ st.seenHttp
    · simp [hhttp]
    · rw [if_neg hhttp]
      by_cases hn : n ∈ st.map
      · simp [hn]
      · rw [if_neg hn, Except.ok.injEq]
        simp [hraft, hhttp, hn, eq_comm]

/-! ## The loop -/

def SeedState.add (st : SeedState) (s : Seed) : SeedState where
  map := st.map.insert s.nodeId s.info
  seenRaft := s.raft :: st.seenRaft
  seenHttp := s.http :: st.seenHttp

def SeedState.Misses (st : SeedState) (s : Seed) : Prop := s.raft ∉ st.seenRaft ∧ s.http ∉ st.seenHttp ∧ s.nodeId ∉ st.map

theorem seedStep_ok (hne : trim e.1 ≠ "") : seedStep st e = .ok st' ↔ ∃ s, Reads (trim e.1) s ∧ st.Misses s ∧ st' = st.add s := by
  unfold seedStep
  rw [if_neg hne]
  constructor
  · intro h
    obtain ⟨p, hp, h⟩ := Result.bind_ok.mp h
    obtain ⟨idStr, raft, http⟩ := p
    obtain ⟨n, hn, h⟩ := Result.bind_ok.mp h
    obtain ⟨_, hraft, h⟩ := Result.bind_ok.mp h
    obtain ⟨_, hhttp, h⟩ := Result.bind_ok.mp h
    obtain ⟨hn, hz⟩ := seedId_ok.mp hn
    obtain ⟨hr, hh, hm, he⟩ := addSeed_ok.mp h
    exact ⟨⟨n, raft, http⟩, ⟨⟨idStr, seedParts_ok.mp hp, hn⟩, hz, validateSeedAddr_ok.mp hraft, validateSeedAddr_ok.mp hhttp⟩,
      ⟨hr, hh, hm⟩, he⟩
  · intro h
    obtain ⟨s, ⟨⟨idStr, hp, hn⟩, hz, hraft, hhttp⟩, ⟨hr, hh, hm⟩, he⟩ := h
    refine Result.bind_ok.mpr ⟨(idStr, s.raft, s.http), seedParts_ok.mpr hp, ?_⟩
    refine Result.bind_ok.mpr ⟨s.nodeId, seedId_ok.mpr ⟨hn, hz⟩, ?_⟩
    refine Result.bind_ok.mpr ⟨(), validateSeedAddr_ok.mpr hraft, ?_⟩
    refine Result.bind_ok.mpr ⟨(), validateSeedAddr_ok.mpr hhttp, ?_⟩
    exact addSeed_ok.mpr ⟨hr, hh, hm, he⟩

theorem misses_add {s s' : Seed} : (st.add s).Misses s' ↔
    st.Misses s' ∧ s'.raft ≠ s.raft ∧ s'.http ≠ s.http ∧ s'.nodeId ≠ s.nodeId := by
  unfold SeedState.Misses SeedState.add
  simp only [List.mem_cons, not_or, ExtTreeMap.mem_insert, compare_eq_iff_eq]
  constructor
  · intro h
    obtain ⟨⟨hr, hr'⟩, ⟨hh, hh'⟩, hn, hn'⟩ := h
    exact ⟨⟨hr', hh', hn'⟩, hr, hh, fun e => hn e.symm⟩
  · intro h
    obtain ⟨⟨hr', hh', hn'⟩, hr, hh, hn⟩ := h
    exact ⟨⟨hr, hr'⟩, ⟨hh, hh'⟩, fun e => hn e.symm, hn'⟩

theorem distinct_cons {s : Seed} : Distinct (s :: seeds) ↔
    Distinct seeds ∧ ∀ s' ∈ seeds, s'.raft ≠ s.raft ∧ s'.http ≠ s.http ∧ s'.nodeId ≠ s.nodeId := by
  constructor
  · intro h
    obtain ⟨hi, hr, hh⟩ := h
    rw [List.map_cons, List.nodup_cons] at hi hr hh
    refine ⟨⟨hi.2, hr.2, hh.2⟩, fun s' hs' => ⟨fun e => hr.1 ?_, fun e => hh.1 ?_, fun e => hi.1 ?_⟩⟩
    · exact List.mem_map.mpr ⟨s', hs', e⟩
    · exact List.mem_map.mpr ⟨s', hs', e⟩
    · exact List.mem_map.mpr ⟨s', hs', e⟩
  · intro h
    obtain ⟨⟨hi, hr, hh⟩, hne⟩ := h
    refine ⟨?_, ?_, ?_⟩ <;> rw [List.map_cons, List.nodup_cons]
    · refine ⟨fun hm => ?_, hi⟩
      obtain ⟨s', hs', e⟩ := List.mem_map.mp hm
      exact (hne s' hs').2.2 e
    · refine ⟨fun hm => ?_, hr⟩
      obtain ⟨s', hs', e⟩ := List.mem_map.mp hm
      exact (hne s' hs').1 e
    · refine ⟨fun hm => ?_, hh⟩
      obtain ⟨s', hs', e⟩ := List.mem_map.mp hm
      exact (hne s' hs').2.1 e

/-- The loop takes the entries that are not blank, each as a member that is new. -/
theorem seedLoop_ok (l : List (String × Nat)) : l.foldlM seedStep st = .ok st' ↔
    ∃ seeds, List.Forall₂ Reads ((l.map fun e => trim e.1).filter (· ≠ "")) seeds ∧ Distinct seeds ∧
      (∀ s ∈ seeds, st.Misses s) ∧ st' = seeds.foldl SeedState.add st := by
  induction l generalizing st with
  | nil =>
    constructor
    · intro h
      cases h
      exact ⟨[], .nil, ⟨.nil, .nil, .nil⟩, by simp, rfl⟩
    · intro h
      obtain ⟨seeds, hread, -, -, he⟩ := h
      cases hread
      rw [he]
      rfl
  | cons e l ih =>
    rw [List.foldlM_cons, Result.bind_ok, List.map_cons]
    by_cases hne : trim e.1 = ""
    · rw [List.filter_cons_of_neg (by simp [hne])]
      constructor
      · intro h
        obtain ⟨st₁, hstep, h⟩ := h
        unfold seedStep at hstep
        rw [if_pos hne] at hstep
        cases hstep
        exact ih.mp h
      · intro h
        refine ⟨st, ?_, ih.mpr h⟩
        unfold seedStep
        rw [if_pos hne]
    · rw [List.filter_cons_of_pos (by simp [hne])]
      constructor
      · intro h
        obtain ⟨st₁, hstep, h⟩ := h
        obtain ⟨s, hread, hmiss, rfl⟩ := (seedStep_ok hne).mp hstep
        obtain ⟨seeds, hreads, hd, hmisses, he⟩ := ih.mp h
        refine ⟨s :: seeds, .cons hread hreads, distinct_cons.mpr ⟨hd, fun s' hs' => (misses_add.mp (hmisses s' hs')).2⟩, ?_, he⟩
        intro s' hs'
        rcases List.mem_cons.mp hs' with rfl | hs'
        · exact hmiss
        · exact (misses_add.mp (hmisses s' hs')).1
      · intro h
        obtain ⟨seeds, hreads, hd, hmisses, he⟩ := h
        cases hreads with
        | @cons _ s _ seeds hread hreads =>
          obtain ⟨hd, hnew⟩ := distinct_cons.mp hd
          refine ⟨st.add s, (seedStep_ok hne).mpr ⟨s, hread, hmisses s (by simp), rfl⟩, ih.mpr ⟨seeds, hreads, hd, ?_, he⟩⟩
          exact fun s' hs' => misses_add.mpr ⟨hmisses s' (by simp [hs']), hnew s' hs'⟩

/-- The map has the members, each once, and nothing besides. -/
def Holds (map : ExtTreeMap Nat RaftNodeInfo) (seeds : List Seed) : Prop :=
  ∀ id info, map[id]? = some info ↔ ∃ s ∈ seeds, s.nodeId = id ∧ s.info = info

theorem Holds.unique (h : Holds map seeds) (h' : Holds map' seeds) : map = map' := by
  apply ExtTreeMap.ext_getElem?
  intro id
  apply Option.ext
  intro info
  exact (h id info).trans (h' id info).symm

theorem Holds.perm (h : Holds map seeds) (hp : seeds.Perm seeds') : Holds map seeds' := by
  intro id info
  rw [h id info]
  simp only [hp.mem_iff]

theorem getElem?_addAll (hd : Distinct seeds) (hmiss : ∀ s ∈ seeds, st.Misses s) (id : Nat) (info : RaftNodeInfo) :
    (seeds.foldl SeedState.add st).map[id]? = some info ↔
      st.map[id]? = some info ∨ ∃ s ∈ seeds, s.nodeId = id ∧ s.info = info := by
  induction seeds generalizing st with
  | nil => simp
  | cons s seeds ih =>
    obtain ⟨hd, hnew⟩ := distinct_cons.mp hd
    have hmiss' : ∀ s' ∈ seeds, (st.add s).Misses s' := fun s' hs' => misses_add.mpr ⟨hmiss s' (by simp [hs']), hnew s' hs'⟩
    have hfree : st.map[s.nodeId]? = none := ExtTreeMap.getElem?_eq_none (hmiss s (by simp)).2.2
    rw [List.foldl_cons, ih hd hmiss']
    have hone : (st.add s).map[id]? = if s.nodeId = id then some s.info else st.map[id]? := by
      unfold SeedState.add
      rw [ExtTreeMap.getElem?_insert]
      simp
    rw [hone]
    by_cases hid : s.nodeId = id
    · subst hid
      rw [if_pos rfl, hfree]
      simp
    · rw [if_neg hid]
      simp [hid]

theorem parseBootstrapPeers_ok : parseBootstrapPeers raw = .ok map ↔
    ∃ seeds, seeds ≠ [] ∧ List.Forall₂ Reads (entriesOf raw) seeds ∧ Distinct seeds ∧ Holds map seeds := by
  have hentries : (((splitAt ',' raw).zipIdx 1).map fun e => trim e.1).filter (· ≠ "") = entriesOf raw := by
    unfold entriesOf
    have hfst : ((splitAt ',' raw).zipIdx 1).map (fun e => trim e.1) = (((splitAt ',' raw).zipIdx 1).map Prod.fst).map trim := by
      rw [List.map_map]
      rfl
    rw [hfst, List.zipIdx_map_fst]
  have hstart : ∀ s, SeedState.Misses { map := ∅, seenRaft := [], seenHttp := [] } s := by
    intro s
    exact ⟨List.not_mem_nil, List.not_mem_nil, ExtTreeMap.not_mem_empty⟩
  have hholds : ∀ {seeds}, Distinct seeds → Holds (seeds.foldl SeedState.add { map := ∅, seenRaft := [], seenHttp := [] }).map seeds := by
    intro seeds hd id info
    rw [getElem?_addAll hd fun s _ => hstart s]
    simp
  have hempty : ∀ {seeds}, Holds map seeds → (map.isEmpty = false ↔ seeds ≠ []) := by
    intro seeds h
    rw [Bool.eq_false_iff, ne_eq, ExtTreeMap.isEmpty_iff]
    constructor
    · intro hne hnil
      apply hne
      apply ExtTreeMap.ext_getElem?
      intro id
      rw [ExtTreeMap.getElem?_empty, Option.eq_none_iff_forall_ne_some]
      intro info hinfo
      obtain ⟨s, hs, -⟩ := (h id info).mp hinfo
      rw [hnil] at hs
      cases hs
    · intro hne hnil
      obtain ⟨s, hs⟩ := List.exists_mem_of_ne_nil _ hne
      have hinfo := (h s.nodeId s.info).mpr ⟨s, hs, rfl, rfl⟩
      rw [hnil] at hinfo
      simp at hinfo
  unfold parseBootstrapPeers
  rw [Result.bind_ok]
  constructor
  · intro h
    obtain ⟨st, hloop, h⟩ := h
    obtain ⟨seeds, hreads, hd, -, rfl⟩ := (seedLoop_ok _).mp hloop
    rw [hentries] at hreads
    by_cases he : (seeds.foldl SeedState.add { map := ∅, seenRaft := [], seenHttp := [] }).map.isEmpty
    · rw [if_pos he] at h
      cases h
    · rw [if_neg he] at h
      cases h
      exact ⟨seeds, (hempty (hholds hd)).mp (by simpa using he), hreads, hd, hholds hd⟩
  · intro h
    obtain ⟨seeds, hne, hreads, hd, hmap⟩ := h
    rw [← hentries] at hreads
    refine ⟨_, (seedLoop_ok _).mpr ⟨seeds, hreads, hd, fun s _ => hstart s, rfl⟩, ?_⟩
    have he : (seeds.foldl SeedState.add { map := ∅, seenRaft := [], seenHttp := [] }).map = map := (hholds hd).unique hmap
    rw [he, if_neg]
    simpa using (hempty hmap).mpr hne

/-! ## Accepted lists -/

theorem Distinct.perm (h : Distinct seeds) (hp : seeds.Perm seeds') : Distinct seeds' :=
  ⟨(hp.map _).nodup_iff.mp h.ids, (hp.map _).nodup_iff.mp h.rafts, (hp.map _).nodup_iff.mp h.https⟩

theorem parse_of_perm (hp : (entriesOf raw).Perm (entriesOf raw')) (h : parseBootstrapPeers raw = .ok map) :
    parseBootstrapPeers raw' = .ok map := by
  obtain ⟨seeds, hne, hreads, hd, hmap⟩ := parseBootstrapPeers_ok.mp h
  obtain ⟨seeds', hreads', hperm⟩ := List.perm_comp_forall₂ hp.symm hreads
  refine parseBootstrapPeers_ok.mpr ⟨seeds', ?_, hreads', hd.perm hperm.symm, hmap.perm hperm.symm⟩
  intro hnil
  rw [hnil] at hperm
  exact hne hperm.nil_eq.symm

def SpelledTwice (addr addr' : String) : Prop :=
  ∃ host port port' n, splitAt ':' addr = [host, port] ∧ splitAt ':' addr' = [host, port'] ∧ port ≠ port' ∧
    parseUnsigned 65535 port = some n ∧ parseUnsigned 65535 port' = some n

theorem addrOf_eq_some {addr host : String} {n : Nat} : addrOf addr = some (host, n) ↔
    ∃ port, splitAt ':' addr = [host, port] ∧ parseUnsigned 65535 port = some n ∧ n ≠ 0 ∧
      ¬ (host = "" ∨ host = "0.0.0.0" ∨ host = "::") := by
  unfold addrOf
  split
  · rename_i host' port hparts
    constructor
    · intro h
      split at h
      · cases h
      · rename_i hhost
        obtain ⟨m, hm, h⟩ := Option.bind_eq_some_iff.mp h
        split at h
        · cases h
        · rename_i hz
          cases h
          exact ⟨port, hparts, hm, hz, hhost⟩
    · intro h
      obtain ⟨port', hparts', hn, hz, hhost⟩ := h
      rw [hparts] at hparts'
      cases hparts'
      rw [if_neg hhost, hn, Option.bind_some, if_neg hz]
  · rename_i hparts
    constructor
    · intro h
      cases h
    · intro h
      obtain ⟨port, hparts', -⟩ := h
      exact absurd hparts' (hparts host port)

theorem splitAt_inj {c : Char} {a b : String} (h : splitAt c a = splitAt c b) : a = b := by
  unfold splitAt at h
  have hchars : a.toList.splitOn c = b.toList.splitOn c := List.map_injective_iff.mpr (fun _ _ => String.ofList_inj.mp) h
  have hjoin : [c].intercalate (a.toList.splitOn c) = a.toList := List.intercalate_splitOn c
  have hjoin' : [c].intercalate (b.toList.splitOn c) = b.toList := List.intercalate_splitOn c
  rw [← String.toList_inj, ← hjoin, hchars, hjoin']

theorem addrOf_eq_iff {addr addr' : String} (h : addrOf addr ≠ none) (hne : addr ≠ addr') :
    addrOf addr = addrOf addr' ↔ addrOf addr' ≠ none ∧ SpelledTwice addr addr' := by
  obtain ⟨⟨host, n⟩, hsome⟩ := Option.ne_none_iff_exists'.mp h
  obtain ⟨port, hparts, hn, hz, hhost⟩ := addrOf_eq_some.mp hsome
  constructor
  · intro he
    rw [hsome] at he
    obtain ⟨port', hparts', hn', -⟩ := addrOf_eq_some.mp he.symm
    refine ⟨by rw [← he]; simp, host, port, port', n, hparts, hparts', ?_, hn, hn'⟩
    intro hport
    rw [hport, ← hparts'] at hparts
    exact hne (splitAt_inj hparts)
  · intro h'
    obtain ⟨-, host₁, port₁, port', m, hparts₁, hparts', -, hm, hm'⟩ := h'
    rw [hparts] at hparts₁
    cases hparts₁
    rw [hn] at hm
    cases hm
    rw [hsome]
    exact (addrOf_eq_some.mpr ⟨port', hparts', hm', hz, hhost⟩).symm

theorem addrs_of_reads {entries : List String} (h : List.Forall₂ Reads entries seeds) :
    ∀ s ∈ seeds, addrOf s.raft ≠ none ∧ addrOf s.http ≠ none := by
  induction h with
  | nil => intro s hs; cases hs
  | cons hread _ ih =>
    intro s hs
    rcases List.mem_cons.mp hs with rfl | hs
    · exact ⟨hread.raft, hread.http⟩
    · exact ih s hs

/-- A list is accepted just if its entries are members of a cluster, of ids and texts of addresses that differ; in any
order they make the same map, and two members of it are at one address just if that is spelled twice. -/
theorem seed_lists (raw : String) (map : ExtTreeMap Nat RaftNodeInfo) :
    (parseBootstrapPeers raw = .ok map ↔
      ∃ seeds, seeds ≠ [] ∧ List.Forall₂ Reads (entriesOf raw) seeds ∧ Distinct seeds ∧ Holds map seeds) ∧
      (∀ raw', (entriesOf raw).Perm (entriesOf raw') → (parseBootstrapPeers raw = .ok map ↔ parseBootstrapPeers raw' = .ok map)) ∧
      (parseBootstrapPeers raw = .ok map → ∀ (id id' : Nat) (node node' : RaftNodeInfo), map[id]? = some node →
        map[id']? = some node' → id ≠ id' →
          (addrOf node.raftAddr = addrOf node'.raftAddr ↔ SpelledTwice node.raftAddr node'.raftAddr) ∧
          (addrOf node.httpAddr = addrOf node'.httpAddr ↔ SpelledTwice node.httpAddr node'.httpAddr)) := by
  refine ⟨parseBootstrapPeers_ok, ?_, ?_⟩
  · intro raw' hp
    exact ⟨parse_of_perm hp, parse_of_perm hp.symm⟩
  · intro h id id' node node' hnode hnode' hne
    obtain ⟨seeds, -, hreads, hd, hmap⟩ := parseBootstrapPeers_ok.mp h
    obtain ⟨s, hs, rfl, rfl⟩ := (hmap id node).mp hnode
    obtain ⟨s', hs', rfl, rfl⟩ := (hmap id' node').mp hnode'
    have hread := addrs_of_reads hreads
    have hraft : s.raft ≠ s'.raft := fun e => hne (congrArg Seed.nodeId (List.inj_on_of_nodup_map hd.rafts hs hs' e))
    have hhttp : s.http ≠ s'.http := fun e => hne (congrArg Seed.nodeId (List.inj_on_of_nodup_map hd.https hs hs' e))
    constructor
    · exact (addrOf_eq_iff (hread s hs).1 hraft).trans (and_iff_right (hread s' hs').1)
    · exact (addrOf_eq_iff (hread s hs).2 hhttp).trans (and_iff_right (hread s' hs').2)

theorem seedOf_ok {n : Nat} {raft http : String} (h : seedOf raw n raft http = .ok map) :
    parseBootstrapPeers raw = .ok map ∧ ∃ node, map[n]? = some node ∧ node.raftAddr = raft ∧ node.httpAddr = http := by
  obtain ⟨seed, hparse, h⟩ := Result.bind_ok.mp h
  obtain ⟨_, hvalid, h⟩ := Result.bind_ok.mp h
  cases h
  refine ⟨hparse, ?_⟩
  unfold validateBootstrapPeers at hvalid
  split at hvalid
  · cases hvalid
  · rename_i node hnode
    refine ⟨node, hnode, ?_⟩
    by_cases hraft : node.raftAddr = raft
    · by_cases hhttp : node.httpAddr = http
      · exact ⟨hraft, hhttp⟩
      · simp [hraft, hhttp] at hvalid
    · simp [hraft] at hvalid

/-- Nodes that start from the same entries start with the same members, and no two of them at one address. -/
theorem seed_agreement {n n' : Nat} {raft http raft' http' : String} (hp : (entriesOf raw).Perm (entriesOf raw'))
    (h : seedOf raw n raft http = .ok map) (h' : seedOf raw' n' raft' http' = .ok map') :
    map = map' ∧ (n ≠ n' → raft ≠ raft' ∧ http ≠ http') := by
  obtain ⟨hparse, node, hnode, hraft, hhttp⟩ := seedOf_ok h
  obtain ⟨hparse', node', hnode', hraft', hhttp'⟩ := seedOf_ok h'
  have hsame := (parse_of_perm hp hparse).symm.trans hparse'
  cases hsame
  refine ⟨rfl, fun hne => ?_⟩
  obtain ⟨seeds, -, -, hd, hmap⟩ := parseBootstrapPeers_ok.mp hparse
  obtain ⟨s, hs, rfl, rfl⟩ := (hmap n node).mp hnode
  obtain ⟨s', hs', rfl, rfl⟩ := (hmap n' node').mp hnode'
  subst hraft hhttp hraft' hhttp'
  constructor
  · exact fun e => hne (congrArg Seed.nodeId (List.inj_on_of_nodup_map hd.rafts hs hs' e))
  · exact fun e => hne (congrArg Seed.nodeId (List.inj_on_of_nodup_map hd.https hs hs' e))

/-- Two members at one address, with a zero before one of the ports. -/
theorem seed_lists_sample : ∃ map, parseBootstrapPeers "1@h:1@x:1,2@h:01@y:1" = .ok map ∧
    ∃ node node', map[1]? = some node ∧ map[2]? = some node' ∧ addrOf node.raftAddr = addrOf node'.raftAddr := by
  have hmap : ((parseBootstrapPeers "1@h:1@x:1,2@h:01@y:1").toOption.map fun map => (map[1]?, map[2]?)) =
      some (some ⟨"", "x:1", "h:1"⟩, some ⟨"", "y:1", "h:01"⟩) := by decide +kernel
  cases h : parseBootstrapPeers "1@h:1@x:1,2@h:01@y:1" with
  | error e =>
    rw [h] at hmap
    cases hmap
  | ok map =>
    rw [h] at hmap
    obtain ⟨h₁, h₂⟩ := Prod.mk.inj (Option.some.inj hmap)
    refine ⟨map, rfl, _, _, h₁, h₂, ((seed_lists _ map).2.2 h 1 2 _ _ h₁ h₂ (by decide)).1.mpr ?_⟩
    exact ⟨"h", "1", "01", 1, by decide, by decide, by decide, by decide, by decide⟩

end Defing
