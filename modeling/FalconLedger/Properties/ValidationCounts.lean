import FalconLedger.Data.Run
import FalconLedger.Properties.TrieSupport
import FalconLedger.Properties.ValidationBacking

/-!
# Each node is counted once

The trie stands for the multiset of the ledgers in `lastLedger`, whatever the operations. The
enforcer of a node takes larger and larger sequence numbers until it expires.
-/

namespace FalconLedger.Consensus

variable {T : LedgerTraits} {NodeID : Type} [DecidableEq NodeID]

namespace Validations

variable {env : Env T NodeID} {s s' : Validations T NodeID} {n nodeID : NodeID}
  {key : ℕ × T.ID} {val v : Validation T} {ledger : T.Ledger}

/-! ### What the trie stands for -/

/-- The ledgers that nodes are counted for, as ids, once for each node. -/
def votes (t : Table NodeID T.Ledger) : Multiset T.ID :=
  (t.entries.map fun e => T.id e.2 : List T.ID)

omit [DecidableEq NodeID] in
theorem card_votes (t : Table NodeID T.Ledger) : Multiset.card (votes t) = t.keys.length := by
  simp [votes, AList.keys, List.keys]

theorem votes_insert (t : Table NodeID T.Ledger) (n : NodeID) (ledger : T.Ledger) :
    votes (t.insert n ledger) = T.id ledger ::ₘ votes (t.erase n) := by
  simp [votes, AList.entries_insert, AList.erase]

theorem votes_of_lookup {t : Table NodeID T.Ledger} (h : t.lookup n = some ledger) :
    votes t = T.id ledger ::ₘ votes (t.erase n) := by
  have hmem : n ∈ t.entries.keys := Table.mem_keys_of_lookup h
  obtain ⟨ledger', a, b, -, hentries, herase⟩ := List.exists_of_kerase hmem
  have hledger : ledger' = ledger := by
    have hlookup : (⟨n, ledger'⟩ : Σ _ : NodeID, T.Ledger) ∈ t.entries := by simp [hentries]
    rw [AList.mem_lookup_iff.mpr hlookup, Option.some.injEq] at h
    exact h
  have hrest : votes (t.erase n) = ((a ++ b).map fun e => T.id e.2 : List T.ID) := by
    simp only [votes, AList.erase, herase]
  rw [hrest, votes, hentries, hledger, Multiset.cons_coe]
  refine Multiset.coe_eq_coe.mpr ?_
  rw [List.map_append, List.map_cons, List.map_append]
  exact List.perm_middle

/-- The trie stands for the ledgers that nodes are counted for, and no node but those of a finite
set is known. -/
structure Tallied (nodes : Finset NodeID) (s : Validations T NodeID) : Prop where
  trie : Represents s.trie (votes s.lastLedger)
  last : ∀ n ledger, s.lastLedger.lookup n = some ledger → n ∈ nodes
  waits : ∀ key n, Waits s key n → n ∈ nodes
  current : ∀ n v, s.current.lookup n = some v → n ∈ nodes

variable {nodes : Finset NodeID}

theorem Tallied.card_le (h : Tallied nodes s) :
    Multiset.card (votes s.lastLedger) ≤ nodes.card := by
  have hsub : s.lastLedger.keys.toFinset ⊆ nodes := fun n hn => by
    obtain ⟨ledger, hledger⟩ := Option.isSome_iff_exists.mp
      (AList.lookup_isSome.mpr (AList.mem_keys.mpr (List.mem_toFinset.mp hn)))
    exact h.last n ledger hledger
  rw [card_votes, ← List.toFinset_card_of_nodup s.lastLedger.keys_nodup]
  exact Finset.card_le_card hsub

theorem Tallied.remove (h : Tallied nodes s) (hnodes : nodes.card < 2 ^ 32)
    (hledger : s.lastLedger.lookup n = some ledger) :
    Represents (s.trie.remove ledger 1).1 (votes (s.lastLedger.erase n)) := by
  have hremove := (h.trie.remove (h.card_le.trans_lt hnodes) ledger 1).1
  rw [votes_of_lookup hledger, Multiset.replicate_one, ← Multiset.singleton_add,
    add_tsub_cancel_left] at hremove
  exact hremove

theorem Tallied.updateLedger (h : Tallied nodes s) (hnodes : nodes.card < 2 ^ 32)
    (hn : n ∈ nodes) (ledger : T.Ledger) : Tallied nodes (s.updateLedger n ledger) := by
  refine ⟨?_, fun m l hm => ?_, h.waits, h.current⟩
  · -- the trie without the ledger the node was counted for before
    obtain ⟨rest, hupdate, hrest⟩ : ∃ rest, (s.updateLedger n ledger).trie = rest.insert ledger 1 ∧
        Represents rest (votes (s.lastLedger.erase n)) := by
      cases hlookup : s.lastLedger.lookup n with
      | none =>
        have hsame : s.lastLedger.erase n = s.lastLedger :=
          AList.ext (List.kerase_of_notMem_keys fun hmem => by
            rw [AList.lookup_eq_none] at hlookup
            exact hlookup (AList.mem_keys.mpr hmem))
        rw [hsame]
        exact ⟨s.trie, by simp only [Validations.updateLedger, hlookup], h.trie⟩
      | some old =>
        exact ⟨_, by simp only [Validations.updateLedger, hlookup], h.remove hnodes hlookup⟩
    have hcard : Multiset.card (votes (s.lastLedger.erase n)) + 1 < 2 ^ 32 := by
      have hsub : (s.lastLedger.erase n).keys.toFinset ⊆ nodes.erase n := fun m hm => by
        have hmem := AList.mem_keys.mpr (List.mem_toFinset.mp hm)
        have hne : m ≠ n := by
          rintro rfl
          rw [← AList.lookup_isSome, AList.lookup_erase] at hmem
          cases hmem
        rw [← AList.lookup_isSome, AList.lookup_erase_ne hne] at hmem
        obtain ⟨l, hl⟩ := Option.isSome_iff_exists.mp hmem
        exact Finset.mem_erase.mpr ⟨hne, h.last m l hl⟩
      have hle := Finset.card_le_card hsub
      rw [List.toFinset_card_of_nodup (s.lastLedger.erase n).keys_nodup,
        Finset.card_erase_of_mem hn] at hle
      rw [card_votes]
      have hpos := Finset.card_pos.mpr ⟨n, hn⟩
      omega
    have hinsert := hrest.insert ledger Nat.one_pos hcard
    rw [hupdate, lastLedger_updateLedger, votes_insert, ← Multiset.singleton_add, add_comm,
      ← Multiset.replicate_one]
    exact hinsert
  · rw [lastLedger_updateLedger] at hm
    by_cases hne : m = n
    · exact hne ▸ hn
    · rw [AList.lookup_insert_ne hne] at hm
      exact h.last m l hm

theorem Tallied.congr (h : Tallied nodes s) (htrie : s'.trie = s.trie)
    (hlast : s'.lastLedger = s.lastLedger) (hwaits : ∀ key n, Waits s' key n → Waits s key n)
    (hcurrent : ∀ n v, s'.current.lookup n = some v → n ∈ nodes) : Tallied nodes s' where
  trie := by
    rw [htrie, hlast]
    exact h.trie
  last n ledger hledger := h.last n ledger (hlast ▸ hledger)
  waits key n hkey := h.waits key n (hwaits key n hkey)
  current := hcurrent

theorem Tallied.stopAcquiring (h : Tallied nodes s) (key : ℕ × T.ID) (nodeID : NodeID) :
    Tallied nodes (s.stopAcquiring key nodeID) := by
  obtain ⟨hkeeps, htrie, hlast⟩ := stopAcquiring_frame s key nodeID
  refine h.congr htrie hlast (fun k n hk => (waits_stopAcquiring.mp hk).1) fun n v hv => ?_
  rw [hkeeps.current] at hv
  exact h.current n v hv

theorem Tallied.removeTrie (h : Tallied nodes s) (hnodes : nodes.card < 2 ^ 32) (nodeID : NodeID)
    (val : Validation T) : Tallied nodes (s.removeTrie nodeID val) := by
  have hstop := h.stopAcquiring val.key nodeID
  unfold Validations.removeTrie
  dsimp only
  split
  · exact hstop
  · rename_i ledger hledger
    split_ifs
    · refine ⟨hstop.remove hnodes hledger, fun n l hl => ?_, hstop.waits, hstop.current⟩
      by_cases hne : n = nodeID
      · rw [hne, AList.lookup_erase] at hl
        cases hl
      · rw [AList.lookup_erase_ne hne] at hl
        exact hstop.last n l hl
    · exact hstop

theorem Tallied.checkKey (h : Tallied nodes s) (hnodes : nodes.card < 2 ^ 32) (env : Env T NodeID)
    (key : ℕ × T.ID) : Tallied nodes (s.checkKey env key) := by
  unfold Validations.checkKey
  split
  · rename_i waiting ledger hwaiting hledger
    have hfold : Tallied nodes ((env.nodeOrder waiting).foldl
        (fun s nodeID => s.updateLedger nodeID ledger) s) := by
      refine List.foldlRecOn (env.nodeOrder waiting) _ h fun s' hs' n hn => ?_
      refine hs'.updateLedger hnodes ?_ ledger
      exact h.waits key n ⟨waiting, hwaiting, (env.nodeOrder_perm waiting).mem_iff.mp hn⟩
    refine hfold.congr rfl rfl (fun k n hk => ?_) hfold.current
    obtain ⟨nodes', hlookup, hn⟩ := hk
    by_cases hkey : k = key
    · rw [hkey, AList.lookup_erase] at hlookup
      cases hlookup
    · rw [AList.lookup_erase_ne hkey] at hlookup
      exact ⟨nodes', hlookup, hn⟩
  · exact h

theorem Tallied.checkAcquired (h : Tallied nodes s) (hnodes : nodes.card < 2 ^ 32)
    (env : Env T NodeID) : Tallied nodes (s.checkAcquired env) :=
  checkAcquired_invariant (Tallied nodes) (fun _ key hs => hs.checkKey hnodes env key) h

theorem Tallied.countOrWait (h : Tallied nodes s) (hnodes : nodes.card < 2 ^ 32)
    (env : Env T NodeID) (hn : n ∈ nodes) (val : Validation T) :
    Tallied nodes (s.countOrWait env n val) := by
  rcases countOrWait_cases env s n val with ⟨ledger, -, heq⟩ | ⟨waiting, heq, hwaiting⟩
  · rw [heq]
    exact h.updateLedger hnodes hn ledger
  · rw [heq]
    refine ⟨h.trie, h.last, fun k m hk => ?_, h.current⟩
    rcases (waits_insert hwaiting).mp hk with hk | ⟨-, rfl⟩
    · exact h.waits k m hk
    · exact hn

theorem Tallied.updateTrie (h : Tallied nodes s) (hnodes : nodes.card < 2 ^ 32)
    (env : Env T NodeID) (hn : n ∈ nodes) (val : Validation T) (prior : Option (ℕ × T.ID)) :
    Tallied nodes (s.updateTrie env n val prior) := by
  unfold Validations.updateTrie
  cases prior with
  | none => exact (h.checkAcquired hnodes env).countOrWait hnodes env hn val
  | some key =>
    exact ((h.stopAcquiring key n).checkAcquired hnodes env).countOrWait hnodes env hn val

theorem Tallied.setCurrent (h : Tallied nodes s) (hn : n ∈ nodes) (val : Validation T) :
    Tallied nodes { s with current := s.current.insert n val } := by
  refine h.congr rfl rfl (fun _ _ => id) fun m v hv => ?_
  by_cases hne : m = n
  · exact hne ▸ hn
  · rw [AList.lookup_insert_ne hne] at hv
    exact h.current m v hv

theorem Tallied.queryCurrent (h : Tallied nodes s) (hnodes : nodes.card < 2 ^ 32)
    (env : Env T NodeID) : Tallied nodes (s.queryCurrent env) := by
  refine List.foldlRecOn _ _ h fun s' hs' n _ => ?_
  rcases flush_cases env s' n with heq | ⟨v, hv, -, heq⟩
  · rw [heq]
    exact hs'
  · rw [heq]
    have hremove := hs'.removeTrie hnodes n v
    refine hremove.congr rfl rfl (fun _ _ => id) fun m w hw => ?_
    by_cases hne : m = n
    · rw [hne, AList.lookup_erase] at hw
      cases hw
    · rw [AList.lookup_erase_ne hne] at hw
      exact hremove.current m w hw

theorem Tallied.withTrie (h : Tallied nodes s) (hnodes : nodes.card < 2 ^ 32)
    (env : Env T NodeID) : Tallied nodes (s.withTrie env) :=
  (h.queryCurrent hnodes env).checkAcquired hnodes env

theorem Tallied.trustChanged (h : Tallied nodes s) (hnodes : nodes.card < 2 ^ 32)
    (env : Env T NodeID) (added removed : List NodeID) :
    Tallied nodes (s.trustChanged env added removed) := by
  have hfold : Tallied nodes
      ((env.nodeOrder s.current.keys).foldl (trustNode env added removed) s) := by
    refine List.foldlRecOn _ _ h fun s' hs' n _ => ?_
    unfold trustNode
    split
    · exact hs'
    · rename_i v hv
      have hn := hs'.current n v hv
      split_ifs
      · exact (hs'.setCurrent hn _).updateTrie hnodes env hn _ none
      · exact (hs'.setCurrent hn _).removeTrie hnodes n _
      · exact hs'
  exact hfold.congr rfl rfl (fun _ _ => id) hfold.current

theorem Tallied.storeCurrent (h : Tallied nodes s) (hnodes : nodes.card < 2 ^ 32)
    (env : Env T NodeID) (hn : n ∈ nodes) (val : Validation T) :
    Tallied nodes (s.storeCurrent env n val).2 := by
  have hset := h.setCurrent hn val
  unfold Validations.storeCurrent
  split
  · dsimp only
    split_ifs
    · exact hset.updateTrie hnodes env hn val none
    · exact hset
  · rename_i v hv
    by_cases hnewer : v.signTime < val.signTime
    · rw [if_pos hnewer]
      dsimp only
      split_ifs
      · exact hset.updateTrie hnodes env hn val (some v.key)
      · exact hset
    · rw [if_neg hnewer]
      exact h

theorem Tallied.add (h : Tallied nodes s) (hnodes : nodes.card < 2 ^ 32) (env : Env T NodeID)
    (hn : n ∈ nodes) (val : Validation T) : Tallied nodes (s.add env n val).2 := by
  unfold Validations.add
  split_ifs
  · dsimp only
    split_ifs
    · refine Tallied.storeCurrent ?_ hnodes env hn val
      exact h.congr rfl rfl (fun _ _ => id) h.current
    · exact h.congr rfl rfl (fun _ _ => id) h.current
  · exact h

/-! ### The enforcers -/

theorem advance_spec {e : SeqEnforcer} {p : ValidationParms} {now : ℤ} (h : ¬e.Expired p now)
    (seq : ℕ) : e.seq ≤ (e.advance p now seq).2.seq ∧
      ((e.advance p now seq).1 = true → e.seq < seq ∧ seq ≤ (e.advance p now seq).2.seq) := by
  simp only [SeqEnforcer.advance, if_neg h]
  split_ifs with hle
  · exact ⟨le_rfl, nofun⟩
  · exact ⟨(not_le.mp hle).le, fun _ => ⟨not_le.mp hle, le_rfl⟩⟩

theorem seqEnforcers_queryCurrent (env : Env T NodeID) (s : Validations T NodeID) :
    (s.queryCurrent env).seqEnforcers = s.seqEnforcers := by
  refine List.foldlRecOn
    (motive := fun s' : Validations T NodeID => s'.seqEnforcers = s.seqEnforcers) _ _ rfl
    fun s' hs' n _ => ?_
  rcases flush_cases env s' n with heq | ⟨v, -, -, heq⟩
  · rw [heq, hs']
  · rw [heq, ← hs']
    exact (removeTrie_keepsNodes s' n v).seqEnforcers

theorem seqEnforcers_trustChanged (env : Env T NodeID) (s : Validations T NodeID)
    (added removed : List NodeID) :
    (s.trustChanged env added removed).seqEnforcers = s.seqEnforcers := by
  have hfold : ((env.nodeOrder s.current.keys).foldl (trustNode env added removed) s).seqEnforcers =
      s.seqEnforcers := by
    refine List.foldlRecOn
      (motive := fun s' : Validations T NodeID => s'.seqEnforcers = s.seqEnforcers) _ _ rfl
      fun s' hs' n _ => ?_
    rw [← hs']
    unfold trustNode
    split
    · rfl
    · split_ifs
      · exact (updateTrie_keepsNodes env _ n _ none).seqEnforcers
      · exact (removeTrie_keepsNodes _ n _).seqEnforcers
      · rfl
  exact hfold

theorem seqEnforcers_storeCurrent (env : Env T NodeID) (s : Validations T NodeID)
    (nodeID : NodeID) (val : Validation T) :
    (s.storeCurrent env nodeID val).2.seqEnforcers = s.seqEnforcers := by
  unfold storeCurrent
  split
  · dsimp only
    split_ifs
    · exact (updateTrie_keepsNodes env _ nodeID val none).seqEnforcers
    · rfl
  · rename_i v hv
    by_cases hnewer : v.signTime < val.signTime
    · rw [if_pos hnewer]
      dsimp only
      split_ifs
      · exact (updateTrie_keepsNodes env _ nodeID val (some v.key)).seqEnforcers
      · rfl
    · rw [if_neg hnewer]

theorem enforcer_add (env : Env T NodeID) (s : Validations T NodeID) (nodeID n : NodeID)
    (val : Validation T) :
    (s.add env nodeID val).2.enforcer n =
      if n = nodeID ∧ isCurrent env.parms env.now val.signTime val.seenTime = true then
        ((s.enforcer n).advance env.parms env.clock val.seq).2
      else s.enforcer n := by
  have hinsert : ∀ enf, (s.seqEnforcers.insert nodeID enf).lookup n =
      if n = nodeID then some enf else s.seqEnforcers.lookup n := fun enf => by
    by_cases hn : n = nodeID
    · rw [hn, AList.lookup_insert, if_pos rfl]
    · rw [AList.lookup_insert_ne hn, if_neg hn]
  have hafter : ∀ (s' : Validations T NodeID) (enf : SeqEnforcer),
      s'.seqEnforcers = s.seqEnforcers.insert nodeID enf →
      s'.enforcer n = if n = nodeID then enf else s.enforcer n := fun s' enf hs' => by
    rw [enforcer, hs', hinsert]
    split_ifs <;> rfl
  unfold add
  split_ifs with hcurrent hn hn
  · obtain ⟨rfl, -⟩ := hn
    dsimp only
    split_ifs
    · rw [hafter _ _ (seqEnforcers_storeCurrent _ _ _ _), if_pos rfl]
      rfl
    · rw [hafter _ _ rfl, if_pos rfl]
      rfl
  · have hne : n ≠ nodeID := fun heq => hn ⟨heq, hcurrent⟩
    dsimp only
    split_ifs
    · rw [hafter _ _ (seqEnforcers_storeCurrent _ _ _ _), if_neg hne]
    · rw [hafter _ _ rfl, if_neg hne]
  · exact absurd hn.2 hcurrent
  · rfl

/-! ### Sequences of operations -/

end Validations

/-- The operations, with what the environment is when each is called. Ledgers arrive between two
operations. -/
inductive ValidationsOp (T : LedgerTraits) (NodeID : Type)
  | add (env : Env T NodeID) (nodeID : NodeID) (val : Validation T)
  | trustChanged (env : Env T NodeID) (added removed : List NodeID)
  | setSeqToKeep (low high : ℕ)
  | expire (env : Env T NodeID)
  | queryCurrent (env : Env T NodeID)
  | queryByLedger (env : Env T NodeID) (ledgerID : T.ID)
  | withTrie (env : Env T NodeID)
  | canValidateSeq (env : Env T NodeID) (seq : ℕ)

/-- What an operation returns. -/
inductive ValidationsReply
  | status (status : ValStatus)
  | allowed (allowed : Bool)
  | done

namespace Validations

variable {env : Env T NodeID} {s : Validations T NodeID} {n : NodeID} {nodes : Finset NodeID}

def step (s : Validations T NodeID) :
    ValidationsOp T NodeID → Validations T NodeID × ValidationsReply
  | .add env nodeID val =>
    ((s.add env nodeID val).2, .status (s.add env nodeID val).1)
  | .trustChanged env added removed => (s.trustChanged env added removed, .done)
  | .setSeqToKeep low high => (s.setSeqToKeep low high, .done)
  | .expire env => (s.expire env, .done)
  | .queryCurrent env => (s.queryCurrent env, .done)
  | .queryByLedger env ledgerID => (s.queryByLedger env ledgerID, .done)
  | .withTrie env => (s.withTrie env, .done)
  | .canValidateSeq env seq =>
    ((s.canValidateSeq env seq).2, .allowed (s.canValidateSeq env seq).1)

/-- Validations come from the nodes of a set. -/
def FromNodes (nodes : Finset NodeID) (_ : Validations T NodeID) : ValidationsOp T NodeID → Prop
  | .add _ nodeID _ => nodeID ∈ nodes
  | _ => True

/-- A node whose current validation is trusted sends no untrusted one; and a node loses its current
validation, or the trust in it, only while it is not counted for another ledger. -/
def Orderly (s : Validations T NodeID) : ValidationsOp T NodeID → Prop
  | .add _ nodeID val =>
    val.trusted = true ∨ ∀ v, s.current.lookup nodeID = some v → v.trusted = false
  | .trustChanged _ added removed => ∀ n ∈ removed, n ∉ added → Settled s n
  | .queryCurrent env => StaleSettled env s
  | .withTrie env => StaleSettled env s
  | _ => True

/-- The sequence number that an operation makes the enforcer of a node take. -/
def taken (n : NodeID) (s : Validations T NodeID) : ValidationsOp T NodeID → Option ℕ
  | .add env nodeID val =>
    if (n = nodeID ∧ isCurrent env.parms env.now val.signTime val.seenTime = true) ∧
        ((s.enforcer n).advance env.parms env.clock val.seq).1 = true then some val.seq
    else none
  | _ => none

/-- The operation does not find the enforcer of a node expired. -/
def NoReset (n : NodeID) (s : Validations T NodeID) : ValidationsOp T NodeID → Prop
  | .add env nodeID val =>
    n = nodeID ∧ isCurrent env.parms env.now val.signTime val.seenTime = true →
      ¬(s.enforcer n).Expired env.parms env.clock
  | _ => True

theorem empty_tallied (nodes : Finset NodeID) :
    Tallied nodes (empty : Validations T NodeID) where
  trie := represents_empty
  last n ledger h := by simp [empty] at h
  waits key n h := by
    obtain ⟨waiting, hwaiting, -⟩ := h
    simp [empty] at hwaiting
  current n v h := by simp [empty] at h

theorem empty_backed : Backed (empty : Validations T NodeID) := fun n => by
  refine Clear.backedAt ⟨by simp [empty], fun key h => ?_⟩
  obtain ⟨waiting, hwaiting, -⟩ := h
  simp [empty] at hwaiting

theorem Tallied.step (h : Tallied nodes s) (hnodes : nodes.card < 2 ^ 32)
    {op : ValidationsOp T NodeID} (hop : FromNodes nodes s op) :
    Tallied nodes (Validations.step s op).1 := by
  cases op with
  | add env nodeID val => exact h.add hnodes env hop val
  | trustChanged env added removed => exact h.trustChanged hnodes env added removed
  | setSeqToKeep low high => exact h.congr rfl rfl (fun _ _ => id) h.current
  | expire env =>
    have hrefresh : Tallied nodes (s.refresh env) := by
      unfold refresh
      split
      · exact h
      · split_ifs
        · exact h.congr rfl rfl (fun _ _ => id) h.current
        · exact h
    exact hrefresh.congr rfl rfl (fun _ _ => id) hrefresh.current
  | queryCurrent env => exact h.queryCurrent hnodes env
  | queryByLedger env ledgerID =>
    change Tallied nodes (s.queryByLedger env ledgerID)
    unfold Validations.queryByLedger
    split
    · exact h
    · exact h.congr rfl rfl (fun _ _ => id) h.current
  | withTrie env => exact h.withTrie hnodes env
  | canValidateSeq env seq => exact h.congr rfl rfl (fun _ _ => id) h.current

theorem Backed.step (h : Backed s) {op : ValidationsOp T NodeID} (hop : Orderly s op) :
    Backed (Validations.step s op).1 := by
  cases op with
  | add env nodeID val => exact h.add hop
  | trustChanged env added removed => exact h.trustChanged hop
  | setSeqToKeep low high => exact h.congr rfl rfl rfl
  | expire env => exact h.expire
  | queryCurrent env => exact h.queryCurrent hop
  | queryByLedger env ledgerID => exact h.queryByLedger
  | withTrie env => exact h.withTrie hop
  | canValidateSeq env seq => exact h.congr rfl rfl rfl

theorem enforcer_step (s : Validations T NodeID) (op : ValidationsOp T NodeID) (n : NodeID)
    (hreset : NoReset n s op) :
    (s.enforcer n).seq ≤ ((step s op).1.enforcer n).seq ∧
      ∀ x ∈ taken n s op, (s.enforcer n).seq < x ∧ x ≤ ((step s op).1.enforcer n).seq := by
  have hsame : (step s op).1.seqEnforcers = s.seqEnforcers → taken n s op = none →
      (s.enforcer n).seq ≤ ((step s op).1.enforcer n).seq ∧
        ∀ x ∈ taken n s op, (s.enforcer n).seq < x ∧ x ≤ ((step s op).1.enforcer n).seq := by
    intro hseq hnone
    rw [enforcer, enforcer, hseq, hnone]
    exact ⟨le_rfl, nofun⟩
  cases op with
  | add env nodeID val =>
    have hstep : (step s (.add env nodeID val)).1.enforcer n =
        (s.add env nodeID val).2.enforcer n := rfl
    rw [hstep, enforcer_add]
    by_cases hput : n = nodeID ∧ isCurrent env.parms env.now val.signTime val.seenTime = true
    · obtain ⟨hle, htaken⟩ := advance_spec (hreset hput) val.seq
      rw [if_pos hput]
      refine ⟨hle, fun x hx => ?_⟩
      simp only [taken] at hx
      split_ifs at hx with hboth
      · rw [Option.mem_some_iff] at hx
        exact hx ▸ htaken hboth.2
      · cases hx
    · rw [if_neg hput]
      refine ⟨le_rfl, fun x hx => ?_⟩
      rw [taken, if_neg fun h => hput h.1] at hx
      cases hx
  | trustChanged env added removed =>
    exact hsame (seqEnforcers_trustChanged env s added removed) rfl
  | setSeqToKeep low high => exact hsame rfl rfl
  | expire env =>
    refine hsame ?_ rfl
    change (s.refresh env).seqEnforcers = s.seqEnforcers
    unfold refresh
    split
    · rfl
    · split_ifs <;> rfl
  | queryCurrent env => exact hsame (seqEnforcers_queryCurrent env s) rfl
  | queryByLedger env ledgerID =>
    refine hsame ?_ rfl
    change (s.queryByLedger env ledgerID).seqEnforcers = s.seqEnforcers
    unfold queryByLedger
    split <;> rfl
  | withTrie env =>
    refine hsame ?_ rfl
    exact (checkAcquired_keepsNodes env _).seqEnforcers.trans (seqEnforcers_queryCurrent env s)
  | canValidateSeq env seq => exact hsame rfl rfl

theorem taken_increasing (n : NodeID) (ops : List (ValidationsOp T NodeID))
    (h : Run.Always step (NoReset n) s ops) :
    (Run.record step (taken n) s ops).Pairwise (· < ·) := by
  have hinvariant : ([] ++ Run.record step (taken n) s ops).Pairwise (· < ·) ∧
      ∀ x ∈ [] ++ Run.record step (taken n) s ops, x ≤ ((Run.final step s ops).enforcer n).seq := by
    refine Run.invariant_record (fun s l => l.Pairwise (· < ·) ∧ ∀ x ∈ l, x ≤ (s.enforcer n).seq)
      (fun s op l hl hop => ?_) ⟨List.Pairwise.nil, nofun⟩ h
    obtain ⟨hle, htaken⟩ := enforcer_step s op n hop
    refine ⟨List.pairwise_append.mpr ⟨hl.1, ?_, fun x hx y hy => ?_⟩, fun x hx => ?_⟩
    · cases taken n s op <;> simp
    · exact (hl.2 x hx).trans_lt (htaken y (Option.mem_toList.mp hy)).1
    · rcases List.mem_append.mp hx with hx | hx
      · exact (hl.2 x hx).trans hle
      · exact (htaken x (Option.mem_toList.mp hx)).2
  exact hinvariant.1

/-- **Each node is counted once.** After any operations with validations from fewer than `2 ^ 32`
nodes, the trie stands for the multiset of the ledgers that the nodes of `lastLedger` are counted for.
If the operations are orderly, a node is counted only while it has a current trusted validation, for
that ledger or for one it waits for, and its sequence numbers increase until its enforcer is reset. -/
theorem validations_counted_once (nodes : Finset NodeID) (hnodes : nodes.card < 2 ^ 32)
    (ops : List (ValidationsOp T NodeID)) (hfrom : Run.Always step (FromNodes nodes) empty ops) :
    let s := Run.final step empty ops
    Represents s.trie (votes s.lastLedger) ∧
      (Run.Always step Orderly empty ops →
        ∀ n ledger, s.lastLedger.lookup n = some ledger →
          ∃ v, s.current.lookup n = some v ∧ v.trusted = true ∧
            (T.id ledger = v.ledgerID ∨ Waits s v.key n)) ∧
      ∀ n later, Run.Always step (NoReset n) s later →
        (Run.record step (taken n) s later).Pairwise (· < ·) := by
  intro s
  have htallied : Tallied nodes s := Run.invariant (Tallied nodes)
    (fun _ _ h hop => h.step hnodes hop) (empty_tallied nodes) hfrom
  refine ⟨htallied.trie, fun horderly => ?_, fun n later => taken_increasing n later⟩
  have hbacked : Backed s :=
    Run.invariant Backed (fun _ _ h hop => h.step hop) empty_backed horderly
  exact fun n ledger => (hbacked n).last ledger

/-! ### A partial validation, and one that goes stale -/

/-- An environment at a time, in which ledger 3 is at hand. -/
def thirdAtHand (now : ℤ) : Env chain ℕ where
  parms := {}
  now := now
  clock := now
  acquire := fun id : ℕ => if id = 3 then some third else none
  nodeOrder := fun l => l
  keyOrder := fun l => l
  acquire_id := fun {id l} h => by
    split_ifs at h with hid
    rw [Option.some.injEq] at h
    rw [← h]
    exact Eq.symm hid
  nodeOrder_perm := fun _ => .rfl
  keyOrder_perm := fun _ => .rfl

/-- A trusted validation of a ledger of the chain. -/
def validationOf (ledger : ℕ) (signTime : ℤ) (full : Bool) : Validation chain :=
  ⟨ledger, ledger, signTime, signTime, 0, true, full⟩

/-- A partial validation of ledger 3, a full one of another node, and a query. -/
def partialRun : List (ValidationsOp chain ℕ) :=
  [.add (thirdAtHand 100) 7 (validationOf 3 100 false),
    .add (thirdAtHand 101) 8 (validationOf 3 101 true), .queryByLedger (thirdAtHand 102) (chain.id third)]

/-- Full validations of ledger 3 and of one that is not at hand, which then goes stale. -/
def staleRun : List (ValidationsOp chain ℕ) :=
  [.add (thirdAtHand 100) 7 (validationOf 3 100 true),
    .add (thirdAtHand 101) 7 (validationOf 5 101 true), .queryCurrent (thirdAtHand 1000)]

omit [DecidableEq NodeID] in
theorem not_waits_of_entries (h : s.acquiring.entries = []) (key : ℕ × T.ID) : ¬Waits s key n := by
  rintro ⟨waiting, hwaiting, -⟩
  rw [AList.lookup, h] at hwaiting
  cases hwaiting

theorem validations_counted_once_partial :
    (Run.final step empty partialRun).lastLedger.lookup 7 = some third ∧
      ∃ v, (Run.final step empty partialRun).current.lookup 7 = some v ∧ v.trusted = true ∧
        (chain.id third = v.ledgerID ∨ Waits (Run.final step empty partialRun) v.key 7) := by
  have hlast : (Run.final step empty partialRun).lastLedger.lookup 7 = some third := by rfl
  have hcard : ({7, 8} : Finset ℕ).card < 2 ^ 32 := by decide
  have hfrom : Run.Always step (FromNodes {7, 8}) empty partialRun :=
    ⟨by simp [FromNodes], by simp [FromNodes], trivial, trivial⟩
  have horderly : Run.Always step Orderly empty partialRun := ⟨.inl rfl, .inl rfl, trivial, trivial⟩
  exact ⟨hlast, (validations_counted_once {7, 8} hcard partialRun hfrom).2.1 horderly 7 third hlast⟩

/-- A node is counted for a partial validation. And a node whose second validation goes stale while
it waits for its ledger is still counted for the first, with no current validation at all. -/
theorem partial_or_gone_counted :
    ((Run.final step empty partialRun).lastLedger.lookup 7 = some third ∧
      (∀ key, ¬Waits (Run.final step empty partialRun) key 7) ∧
      ¬∃ v, (Run.final step empty partialRun).current.lookup 7 = some v ∧ v.trusted = true ∧
        v.full = true) ∧
    (Run.final step empty staleRun).lastLedger.lookup 7 = some third ∧
      (∀ key, ¬Waits (Run.final step empty staleRun) key 7) ∧
      (Run.final step empty staleRun).current.lookup 7 = none := by
  refine ⟨⟨by rfl, not_waits_of_entries (by rfl), ?_⟩, by rfl, not_waits_of_entries (by rfl),
    by rfl⟩
  have hcurrent : (Run.final step empty partialRun).current.lookup 7 =
      some (validationOf 3 100 false) := by rfl
  rintro ⟨v, hv, -, hfull⟩
  rw [hcurrent, Option.some.injEq] at hv
  rw [← hv] at hfull
  cases hfull

end Validations

end FalconLedger.Consensus
