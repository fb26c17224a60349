import Qrtb.Ledger.Runs

/-!
# Spent outputs over a run

Nothing removes an entry from the UTXO set and no spend clears a flag, so the
only way back for a spent output is to be created again under the same key.
Adding outputs does not look at what it replaces. A run keeps every spent
output spent exactly when no step creates over a spent entry.
-/

namespace Qrtb

open Transition

namespace Ledger

/-- What is spent in the first state is spent in the second. -/
def KeepsSpent (L M : Ledger) : Prop := ∀ k, L.utxoSet.Spent k → M.utxoSet.Spent k

/-- The transaction would not create an output over a spent entry. One whose references repeat
creates nothing. -/
def CreatesFresh (L : Ledger) (tx : Transaction) : Prop :=
  tx.refs.Nodup → ∀ k, tx.Creates k → ¬ L.utxoSet.Spent k

/-- A step whose transaction, if it is accepted, creates over no spent entry. -/
def FreshStep (L : Ledger) (e : Event) (M : Ledger) : Prop :=
  Step L e M ∧ (L.Accepts e.tx e.epoch → L.CreatesFresh e.tx)

/-- Between any two states of the run nothing that was spent becomes unspent. -/
def SpentForever (s : Ledger) (es : List Event) (N : Ledger) : Prop :=
  ∀ pre mid post, es = pre ++ (mid ++ post) → ∀ L M, Run Step s pre L → Run Step L mid M →
    Run Step M post N → L.KeepsSpent M

variable {L M N : Ledger} {e : Event} {es : List Event}

theorem KeepsSpent.refl (L : Ledger) : L.KeepsSpent L := fun _ h => h

theorem KeepsSpent.trans (h : L.KeepsSpent M) (h' : M.KeepsSpent N) : L.KeepsSpent N :=
  fun k hk => h' k (h k hk)

theorem keepsSpent_of_freshStep (h : FreshStep L e M) : L.KeepsSpent M := by
  obtain ⟨hstep, hfresh⟩ := h
  rcases step_cases hstep with ⟨-, -, rfl⟩ | ⟨ha, -, rfl⟩
  · exact KeepsSpent.refl _
  intro k hk
  rcases get?_applyTransaction e.tx L k with h' | ⟨-, u, t, -, -, h'⟩ | ⟨t, j, out, ht, hs, hj, rfl, -⟩
  · obtain ⟨u, hu, hus⟩ := hk
    exact ⟨u, h'.trans hu, hus⟩
  · exact ⟨_, h', rfl⟩
  · have hn := ((L.utxoSet.spendInputs_eq_true_iff t e.tx.inputs).mp hs).1
    exact absurd hk (hfresh ha hn _ ⟨t, j, out, ht, hj, rfl⟩)

theorem keepsSpent_of_freshRun (h : Run FreshStep L es M) : L.KeepsSpent M := by
  induction h with
  | nil => exact KeepsSpent.refl _
  | cons hstep _ ih => exact (keepsSpent_of_freshStep hstep).trans ih

theorem createsFresh_of_keepsSpent (hk : L.KeepsSpent (applyTransaction e.tx L).2)
    (ha : L.Accepts e.tx e.epoch) : L.CreatesFresh e.tx := by
  intro hn k hc hspent
  obtain ⟨t, j, out, ht, hj, rfl⟩ := hc
  have hp : e.tx.Packable := e.tx.txHash_returns.mp ⟨t, ht⟩
  have happly := (applyTransaction_returns_true_iff ha).mpr ⟨hn, hp⟩
  have hnew := get?_applyTransaction_output happly ht hj
  obtain ⟨u, hu, hus⟩ := hk _ hspent
  obtain rfl := Option.some.inj (hnew.symm.trans hu)
  cases hus

theorem SpentForever.tail (h : SpentForever L (e :: es) N) (hstep : Step L e M) :
    SpentForever M es N := by
  intro pre mid post hes A B hpre hmid hpost
  exact h (e :: pre) mid post (by rw [hes]; rfl) A B (.cons hstep hpre) hmid hpost

theorem freshRun_of_spentForever (hrun : Run Step L es N) (h : SpentForever L es N) :
    Run FreshStep L es N := by
  induction hrun with
  | nil => exact .nil _
  | @cons L M N e es hstep hrest ih =>
    refine .cons ⟨hstep, ?_⟩ (ih (h.tail hstep))
    intro ha
    have hkeeps := h [] [e] es rfl L M (.nil L) (Run.single hstep) hrest
    rcases step_cases hstep with ⟨hn, -, -⟩ | ⟨-, -, rfl⟩
    · exact absurd ha hn
    · exact createsFresh_of_keepsSpent hkeeps ha

theorem spentForever_of_freshRun (hrun : Run FreshStep L es N) : SpentForever L es N := by
  intro pre mid post hes A B hpre hmid hpost
  have hweak : ∀ s e t, FreshStep s e t → Step s e t := fun _ _ _ h => h.1
  have hdet : ∀ s e t t', Step s e t → Step s e t' → t = t' := fun _ _ _ _ h h' => step_unique h h'
  subst hes
  obtain ⟨A', hpre', hrest⟩ := hrun.split
  obtain ⟨B', hmid', -⟩ := hrest.split
  obtain rfl := Run.unique hdet hpre (hpre'.mono hweak)
  obtain rfl := Run.unique hdet hmid (hmid'.mono hweak)
  exact keepsSpent_of_freshRun hmid'

/-- A run from the empty ledger keeps spent outputs spent exactly when none of its steps creates
an output over a spent entry. -/
theorem spentForever_iff_freshRun (hrun : Run Step {} es N) :
    SpentForever {} es N ↔ Run FreshStep {} es N :=
  ⟨freshRun_of_spentForever hrun, spentForever_of_freshRun⟩

theorem Accepts.spent_of_applied {tx : Transaction} {currentEpoch : ℤ}
    (ha : L.Accepts tx currentEpoch) (happly : (applyTransaction tx L).1 = .ok true) {k : OutRef}
    (hk : k ∈ tx.refs) (hnot : ¬ tx.Creates k) : (applyTransaction tx L).2.utxoSet.Spent k := by
  obtain ⟨inp, hinp, rfl⟩ := List.mem_map.mp hk
  obtain ⟨u, hu⟩ := ha.inputUnspent inp hinp
  obtain ⟨t, ht⟩ := get?_applyTransaction_input happly hinp hnot hu.1
  exact ⟨_, ht, rfl⟩

theorem unspent_funded {k : OutRef} : ¬ (funded [] 0).utxoSet.Spent k := by
  rintro ⟨u, hu, hspent⟩
  obtain ⟨t, j, out, -, -, rfl⟩ := exists_output_of_funded [] hu
  cases hspent

/-- After a coinbase and two transfers the output that the first transfer spent is still spent. -/
theorem spentForever_two_transfers : ∃ (es : List Event) (N : Ledger) (k : OutRef),
    Run Step {} es N ∧ es.length = 3 ∧ SpentForever {} es N ∧ N.utxoSet.Spent k := by
  obtain ⟨h, e, e', N, hrest, happlied, happlied', -, -, -, -, hrefs, -, hlen, hlen'⟩ :=
    exists_spending_run
  obtain ⟨c, hfunded⟩ : ∃ c, Run Step {} [c] (funded [] 0) := ⟨_, run_funded [] 0⟩
  have hrun : Run Step {} [c, e, e'] N := hfunded.append hrest
  cases hrest with
  | cons hstep hlast =>
  obtain ⟨ha, happly, rfl⟩ := step_applied hstep happlied
  have hsecond : Run FreshStep (applyTransaction e.tx (funded [] 0)).2 [e'] N := by
    cases hlast with
    | cons hstep' hnil =>
    refine .cons ⟨hstep', ?_⟩ (hnil.eq_of_nil ▸ .nil _)
    intro _ _ k hcreates hspent
    obtain ⟨u, hu, hus⟩ := hspent
    rcases get?_applyTransaction e.tx (funded [] 0) k with h' | ⟨hmem, -⟩ | ⟨t, j, out, -, -, -, -, h'⟩
    · exact unspent_funded ⟨u, h'.symm.trans hu, hus⟩
    · have hindex := Transaction.index_of_creates hlen' hcreates
      simp only [hrefs, List.mem_singleton] at hmem
      simp [hmem] at hindex
    · obtain rfl := Option.some.inj (h'.symm.trans hu)
      cases hus
  have hfresh : Run FreshStep {} [c, e, e'] N := by
    cases hfunded with
    | cons hstep₀ hnil =>
    obtain rfl := hnil.eq_of_nil
    refine .cons ⟨hstep₀, ?_⟩ (.cons ⟨hstep, fun _ _ k _ => unspent_funded⟩ hsecond)
    intro _ _ k _ hspent
    obtain ⟨u, hu, -⟩ := hspent
    simp at hu
  have hforever : SpentForever {} [c, e, e'] N := (spentForever_iff_freshRun hrun).mpr hfresh
  have hspent : (applyTransaction e.tx (funded [] 0)).2.utxoSet.Spent (h, 1) := by
    refine ha.spent_of_applied happly (by simp [hrefs]) ?_
    intro hcreates
    simpa using Transaction.index_of_creates hlen hcreates
  exact ⟨_, N, (h, 1), hrun, rfl, hforever, hforever [c, e] [e'] [] rfl _ N
    (hfunded.append (.single hstep)) hlast (.nil N) _ hspent⟩

/-- Applying the same coinbase twice brings an output back that was spent in between. -/
theorem coinbase_replay_unspends : ∃ (es fs : List Event) (L M : Ledger) (k : OutRef),
    ((es ++ fs).map Event.epoch).Pairwise (· ≤ ·) ∧ Run Step {} es L ∧ Run Step L fs M ∧
      L.utxoSet.Spent k ∧ ¬ M.utxoSet.Spent k := by
  obtain ⟨h, -, hfunded⟩ := exists_fundingHash [] (by decide : (0 : ℤ) ≤ 0) (by decide)
  have hget : (funded [] 0).utxoSet.utxos.get? (h, 1) =
      some (UtxoSet.newUtxo 0 h 1 { value := 1000000, address := [] }) := by
    unfold funded
    exact (hfunded _).2
  let tx := spending .transfer [(h, 1)] none { value := 900000, address := [] } 0
  have haccepts : (funded [] 0).Accepts (tx.signedBy []) 0 := by
    apply accepts_transfer_spending <;> simp [UtxoSet.valueAt, hget, UtxoSet.newUtxo,
      authRegistry_funded, AuthRegistry.isRegistered]
  have hpack := (tx.packable_signedBy []).mp (haccepts.packable (by simp [tx]))
  have happly := applies_signedBy haccepts (by simp [tx]) hpack
  have hspent : (applyTransaction (tx.signedBy []) (funded [] 0)).2.utxoSet.Spent (h, 1) :=
    haccepts.spent_of_applied happly (by simp [tx, Transaction.refs_signedBy])
      (not_creates_spending [] h)
  have hrun := (run_funded [] 0).append (Run.single (step_of_accepts haccepts))
  refine ⟨_, _, _, _, (h, 1), ?_, hrun, Run.single (step_of_accepts (accepts_funding [] 0 _)),
    hspent, ?_⟩
  · simp
  · intro hunspent
    obtain ⟨u, hu, hus⟩ := hunspent
    obtain rfl := Option.some.inj ((hfunded _).2.symm.trans hu)
    cases hus

end Ledger

end Qrtb
