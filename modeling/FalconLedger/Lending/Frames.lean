import FalconLedger.Lending.Transactor

/-!
# What a movement of assets leaves alone

No movement of drops, assets or shares touches a loan, a broker or the clock; nor does any transaction
on a vault.
-/

namespace FalconLedger

/-- The loans, the brokers and the clock are the same. -/
structure Market.SameBooks (m m' : Market) : Prop where
  closeTime : m'.closeTime = m.closeTime
  brokers : m'.brokers = m.brokers
  loans : m'.loans = m.loans

namespace Market

variable {G : LendingServices} {m m' m'' : Market}

theorem SameBooks.refl (m : Market) : m.SameBooks m := ⟨rfl, rfl, rfl⟩

theorem SameBooks.trans (h : m.SameBooks m') (h' : m'.SameBooks m'') : m.SameBooks m'' :=
  ⟨h'.closeTime.trans h.closeTime, h'.brokers.trans h.brokers, h'.loans.trans h.loans⟩

theorem sameBooks_ledger (m : Market) (s : Ledger) : m.SameBooks { m with ledger := s } :=
  ⟨rfl, rfl, rfl⟩

theorem sameBooks_setToken (m : Market) (shares : MPTID) (holder : AccountID) (token : ShareToken) :
    m.SameBooks (m.setToken shares holder token) :=
  ⟨rfl, rfl, rfl⟩

theorem sameBooks_setVault (m : Market) (id : UInt256) (vault : VaultEntry) :
    m.SameBooks (m.setVault id vault) :=
  ⟨rfl, rfl, rfl⟩

/-! ### Drops and assets -/

theorem transferXRP_sameBooks {source destination : AccountID} {amount : Int}
    (h : m.transferXRP source destination amount = .ok m') : m.SameBooks m' := by
  simp only [transferXRP, Except.bind_eq_ok, Except.pure_eq_ok] at h
  obtain ⟨s, -, rfl⟩ := h
  exact sameBooks_ledger m s

theorem dirLink_sameBooks {owner : AccountID} {key : UInt256} {page : UInt64}
    (h : m.dirLink owner key = .ok (page, m')) : m.SameBooks m' := by
  simp only [dirLink, Except.bind_eq_ok, Except.pure_eq_ok] at h
  obtain ⟨_, -, _, -, hpair⟩ := h
  rw [← (Prod.mk.inj hpair).2]
  exact sameBooks_ledger m _

theorem accountSend_sameBooks {sender receiver : AccountID} {amount : STAmount}
    (h : m.accountSend G sender receiver amount = .ok m') : m.SameBooks m' := by
  cases amount <;>
  · simp only [accountSend, Except.bind_eq_ok, Except.pure_eq_ok] at h
    obtain ⟨_, -, rfl⟩ := h
    exact sameBooks_ledger m _

theorem accountSendMulti_sameBooks {sender : AccountID} {asset : Asset}
    {receivers : List (AccountID × Number)}
    (h : m.accountSendMulti G sender asset receivers = .ok m') : m.SameBooks m' := by
  rw [accountSendMulti] at h
  split_ifs at h
  · simp only [Except.bind_eq_ok, Except.pure_eq_ok] at h
    obtain ⟨_, -, _, -, rfl⟩ := h
    exact sameBooks_ledger m _
  · simp only [Except.bind_eq_ok, Except.pure_eq_ok] at h
    obtain ⟨_, -, rfl⟩ := h
    exact sameBooks_ledger m _

theorem addEmptyHolding_sameBooks {account : AccountID} {priorBalance : Int} {asset : Asset}
    (h : m.addEmptyHolding G account priorBalance asset = .ok m') : m.SameBooks m' := by
  rw [addEmptyHolding] at h
  split_ifs at h
  · cases h
    exact .refl m
  · cases heffect : G.addEmptyHolding m account priorBalance asset with
    | ok e =>
      rw [heffect] at h
      cases h
      exact sameBooks_ledger m _
    | error ter =>
      rw [heffect] at h
      cases ter <;> cases h
      exact .refl m

/-! ### Shares -/

theorem takeShares_sameBooks {issuance : ShareIssuance} {sender : AccountID} {shares : MPTID}
    {amount : Nat} (h : m.takeShares issuance sender shares amount = .ok m') : m.SameBooks m' := by
  rw [takeShares] at h
  split_ifs at h
  · simp only [Except.bind_eq_ok, Except.pure_eq_ok] at h
    obtain ⟨_, -, rfl⟩ := h
    exact ⟨rfl, rfl, rfl⟩
  · simp only [Except.bind_eq_ok, Except.pure_eq_ok] at h
    obtain ⟨_, -, _, -, rfl⟩ := h
    exact sameBooks_setToken m _ _ _

theorem giveShares_sameBooks {issuance : ShareIssuance} {receiver : AccountID} {shares : MPTID}
    {amount : Nat} (h : m.giveShares issuance receiver shares amount = .ok m') : m.SameBooks m' := by
  rw [giveShares] at h
  split_ifs at h
  · simp only [Except.bind_eq_ok, Except.pure_eq_ok] at h
    obtain ⟨_, -, rfl⟩ := h
    exact ⟨rfl, rfl, rfl⟩
  · simp only [Except.bind_eq_ok, Except.pure_eq_ok] at h
    obtain ⟨_, -, rfl⟩ := h
    exact sameBooks_setToken m _ _ _

theorem directSendNoFeeMPT_sameBooks {sender receiver : AccountID} {shares : MPTID} {amount : Nat}
    (h : m.directSendNoFeeMPT sender receiver shares amount = .ok m') : m.SameBooks m' := by
  simp only [directSendNoFeeMPT, Except.bind_eq_ok] at h
  obtain ⟨_, -, m₁, htake, hgive⟩ := h
  exact (takeShares_sameBooks htake).trans (giveShares_sameBooks hgive)

theorem accountSendMPT_sameBooks {sender receiver : AccountID} {shares : MPTID} {amount : Nat}
    (h : m.accountSendMPT sender receiver shares amount = .ok m') : m.SameBooks m' := by
  rw [accountSendMPT] at h
  split_ifs at h
  · cases h
    exact .refl m
  · simp only [Except.bind_eq_ok] at h
    obtain ⟨_, -, h⟩ := h
    split_ifs at h
    · simp only [Except.bind_eq_ok] at h
      obtain ⟨_, -, h⟩ := h
      exact directSendNoFeeMPT_sameBooks h
    · simp only [Except.bind_eq_ok] at h
      obtain ⟨m₁, hfirst, h⟩ := h
      exact (directSendNoFeeMPT_sameBooks hfirst).trans (directSendNoFeeMPT_sameBooks h)

theorem createMPToken_sameBooks {priorBalance : Int} {shares : MPTID} {account : AccountID}
    (h : m.createMPToken G priorBalance shares account = .ok m') : m.SameBooks m' := by
  simp only [createMPToken, Except.bind_eq_ok, Except.pure_eq_ok] at h
  obtain ⟨_, -, _, -, _, -, ⟨_, m₁⟩, hlink, _, -, rfl⟩ := h
  exact (dirLink_sameBooks hlink).trans
    ((sameBooks_setToken m₁ _ _ _).trans (sameBooks_ledger _ _))

theorem deleteMPToken_sameBooks {shares : MPTID} {account : AccountID}
    (h : m.deleteMPToken G shares account = .ok m') : m.SameBooks m' := by
  simp only [deleteMPToken, Except.bind_eq_ok, Except.pure_eq_ok] at h
  obtain ⟨_, -, _, -, _, -, _, -, _, -, rfl⟩ := h
  exact ⟨rfl, rfl, rfl⟩

theorem authorizeHolder_sameBooks {shares : MPTID} {issuer holder : AccountID}
    (h : m.authorizeHolder shares issuer holder = .ok m') : m.SameBooks m' := by
  simp only [authorizeHolder, Except.bind_eq_ok, Except.pure_eq_ok] at h
  obtain ⟨_, -, _, -, _, -, _, -, rfl⟩ := h
  exact sameBooks_setToken m _ _ _

theorem removeEmptyHolding_sameBooks {shares : MPTID} {account : AccountID}
    (h : m.removeEmptyHolding G shares account = .ok m') : m.SameBooks m' := by
  rw [removeEmptyHolding] at h
  cases htoken : m.tokens.lookup (shares, account) with
  | none =>
    rw [htoken] at h
    dsimp only at h
    split_ifs at h
    cases h
    exact .refl m
  | some token =>
    rw [htoken] at h
    dsimp only at h
    split_ifs at h
    · cases h
      exact .refl m
    · exact deleteMPToken_sameBooks h

theorem enforceMPTokenAuthorization_sameBooks {shares : MPTID} {account : AccountID}
    {priorBalance : Int}
    (h : m.enforceMPTokenAuthorization G shares account priorBalance = .ok m') :
    m.SameBooks m' := by
  simp only [enforceMPTokenAuthorization, Except.bind_eq_ok] at h
  obtain ⟨_, -, _, -, h⟩ := h
  split at h
  · split at h
    · split_ifs at h
      · cases h
        exact .refl m
      · exact createMPToken_sameBooks h
    · cases h
  · split_ifs at h
    cases h
    exact .refl m
  · cases h

theorem adjustLiquidationDebt_sameBooks {vault : VaultEntry} {account : AccountID}
    {shareDelta : Number}
    (h : Lending.adjustLiquidationDebtForShareDelta m vault account shareDelta = .ok m') :
    m.SameBooks m' := by
  rw [Lending.adjustLiquidationDebtForShareDelta] at h
  split_ifs at h
  · cases h
    exact .refl m
  · cases htoken : m.tokens.lookup (vault.shareMPTID, account) with
    | none =>
      rw [htoken] at h
      cases h
      exact .refl m
    | some token =>
      rw [htoken] at h
      simp only [Except.bind_eq_ok, Except.pure_eq_ok] at h
      obtain ⟨_, -, _, -, _, -, _, -, _, -, rfl⟩ := h
      exact sameBooks_setToken m _ _ _

end Market

/-! ### Transactions on a vault -/

variable {G : LendingServices} {m m' : Market} {tx : LendingTx} {a : LendingApplied}

theorem Lending.payClaim_sameBooks {vaultID : UInt256} {vault : VaultEntry}
    {brokerPseudo account : AccountID} {pending : Number}
    (h : (do
      let drops ← number (Number.toRep m.env pending)
      failIf (drops ≤ 0) .tecPrecisionLoss
      let pool := vault.liquidationCollateral.getD 0
      failIf (pool < drops) .tecInsufficientFunds
      let m ← m.transferXRP brokerPseudo account drops
      let token ← orFail (m.tokens.lookup (vault.shareMPTID, account)) .tecNoEntry
      let shares ← number (Number.ofInt m.env token.amount)
      let debt ← mptLiquidationDebt m token shares (vaultLiquidationIndex vault)
      let debt ← number (Number.add m.env debt (← number (Number.ofInt m.env drops)))
      let m := m.setToken vault.shareMPTID account
        { token with liquidationDebt := unlessDefault debt }
      return m.setVault vaultID
        { vault with liquidationCollateral := unlessDefault (pool - drops) }) = .ok m') :
    m.SameBooks m' := by
  simp only [Except.bind_eq_ok, Except.pure_eq_ok] at h
  obtain ⟨_, -, _, -, _, -, m₁, hsend, _, -, _, -, _, -, _, -, _, -, rfl⟩ := h
  exact (Market.transferXRP_sameBooks hsend).trans
    ((Market.sameBooks_setToken m₁ _ _ _).trans (Market.sameBooks_setVault _ _ _))

theorem Lending.claimLiquidationFalcon_sameBooks {vaultID : UInt256} {vault : VaultEntry}
    {brokerPseudo account : AccountID} {maxAmount : Option STAmount}
    (h : claimLiquidationFalcon m vaultID vault brokerPseudo account maxAmount = .ok m') :
    m.SameBooks m' := by
  simp only [claimLiquidationFalcon, Except.bind_eq_ok] at h
  obtain ⟨_, -, _, -, h⟩ := h
  cases maxAmount with
  | none => exact payClaim_sameBooks h
  | some amount =>
    cases amount with
    | native cap =>
      dsimp only at h
      split_ifs at h
      · simp only [Except.bind_eq_ok, number_eq_ok] at h
        obtain ⟨_, -, _, -, h⟩ := h
        exact payClaim_sameBooks (by simpa only [Except.bind_eq_ok, number_eq_ok] using h)
      · exact payClaim_sameBooks h
    | issued currency issuer value => exact payClaim_sameBooks h
    | mpt id n => exact payClaim_sameBooks h

theorem VaultClaimCollateral.doApply_sameBooks {loanBrokerID : UInt256} {amount : Option STAmount}
    (h : VaultClaimCollateral.doApply m tx loanBrokerID amount = .ok a) : m.SameBooks a.view := by
  simp only [VaultClaimCollateral.doApply, Except.bind_eq_ok] at h
  obtain ⟨_, -, _, -, view, hclaim, hdone⟩ := h
  cases hdone
  exact Lending.claimLiquidationFalcon_sameBooks hclaim

theorem VaultDeposit.prepareToken_sameBooks {preFeeBalance : Int} {account : AccountID}
    {vault : VaultEntry} {issuance : ShareIssuance}
    (h : prepareToken G m preFeeBalance account vault issuance = .ok m') : m.SameBooks m' := by
  rw [prepareToken] at h
  by_cases hother : vault.isPrivate = true ∧ account ≠ vault.owner
  · rw [if_pos hother] at h
    exact Market.enforceMPTokenAuthorization_sameBooks h
  · rw [if_neg hother] at h
    by_cases hprivate : vault.isPrivate = true
    · simp only [if_pos hprivate] at h
      split_ifs at h
      · exact Market.authorizeHolder_sameBooks h
      · obtain ⟨m₁, hcreate, hallow⟩ := Except.bind_eq_ok.mp h
        exact (Market.createMPToken_sameBooks hcreate).trans
          (Market.authorizeHolder_sameBooks hallow)
    · simp only [if_neg hprivate] at h
      split_ifs at h
      · cases h
        exact .refl m
      · obtain ⟨m₁, hcreate, hdone⟩ := Except.bind_eq_ok.mp h
        cases hdone
        exact Market.createMPToken_sameBooks hcreate

theorem VaultDeposit.doApply_sameBooks {preFeeBalance : Int} {vaultID : UInt256} {amount : STAmount}
    (h : VaultDeposit.doApply G m preFeeBalance tx vaultID amount = .ok a) : m.SameBooks a.view := by
  simp only [VaultDeposit.doApply, Except.bind_eq_ok] at h
  obtain ⟨_, -, _, -, m₁, hprepare, _, -, _, -, _, -, _, -, _, -, _, -, _, -, _, -, m₂, hsend, _, -,
    _, -, m₃, hgive, h⟩ := h
  have hmoved : m.SameBooks m₃ := (prepareToken_sameBooks hprepare).trans
    ((Market.sameBooks_setVault m₁ _ _).trans ((Market.accountSend_sameBooks hsend).trans
      (Market.accountSendMPT_sameBooks hgive)))
  split_ifs at h
  · simp only [Except.bind_eq_ok] at h
    obtain ⟨_, -, m₄, hdebt, hdone⟩ := h
    cases hdone
    exact hmoved.trans ((Market.adjustLiquidationDebt_sameBooks hdebt).trans
      (Market.sameBooks_setVault m₄ _ _))
  · cases h
    exact hmoved.trans (Market.sameBooks_setVault m₃ _ _)

theorem VaultWithdraw.doWithdraw_sameBooks {sender dstAcct source : AccountID} {priorBalance : Int}
    {amount : STAmount} (h : doWithdraw G m sender dstAcct source priorBalance amount = .ok m') :
    m.SameBooks m' := by
  rw [doWithdraw] at h
  split_ifs at h
  · simp only [Except.bind_eq_ok] at h
    obtain ⟨m₁, hholding, _, -, _, -, hsend⟩ := h
    exact (Market.addEmptyHolding_sameBooks hholding).trans (Market.accountSend_sameBooks hsend)
  · simp only [Except.bind_eq_ok] at h
    obtain ⟨_, -, m₁, hdone, _, -, _, -, hsend⟩ := h
    cases hdone
    exact Market.accountSend_sameBooks hsend

theorem VaultWithdraw.leave_sameBooks {vaultID : UInt256} {vault vault' : VaultEntry}
    {dstAcct : AccountID} {priorBalance : Int} {amount : STAmount}
    (h : (do
      let m ←
        if tx.account = vault.owner then pure m
        else m.removeEmptyHolding G vault.shareMPTID tx.account
      let m := m.setVault vaultID vault'
      let m ← doWithdraw G m tx.account dstAcct vault.account priorBalance amount
      return (⟨m, some vaultID⟩ : LendingApplied)) = .ok a) : m.SameBooks a.view := by
  split_ifs at h
  · simp only [Except.bind_eq_ok, Except.pure_eq_ok] at h
    obtain ⟨m₁, rfl, m₂, hsend, rfl⟩ := h
    exact (Market.sameBooks_setVault m _ _).trans (doWithdraw_sameBooks hsend)
  · simp only [Except.bind_eq_ok, Except.pure_eq_ok] at h
    obtain ⟨m₁, hremove, m₂, hsend, rfl⟩ := h
    exact (Market.removeEmptyHolding_sameBooks hremove).trans
      ((Market.sameBooks_setVault m₁ _ _).trans (doWithdraw_sameBooks hsend))

theorem VaultWithdraw.doApply_sameBooks {preFeeBalance : Int} {vaultID : UInt256}
    {amount : STAmount} {destination : Option AccountID}
    (h : VaultWithdraw.doApply G m preFeeBalance tx vaultID amount destination = .ok a) :
    m.SameBooks a.view := by
  simp only [VaultWithdraw.doApply, Except.bind_eq_ok] at h
  obtain ⟨vault, -, _, -, _, -, _, -, _, -, _, -, total, -, available, -, m₁, hgive, h⟩ := h
  have hmoved : m.SameBooks m₁ :=
    (Market.sameBooks_setVault m _ _).trans (Market.accountSendMPT_sameBooks hgive)
  by_cases hrule : m₁.rules.lendingPermissionless = true
  · rw [if_pos hrule] at h
    obtain ⟨_, -, h⟩ := Except.bind_eq_ok.mp h
    obtain ⟨m₂, hdebt, h⟩ := Except.bind_eq_ok.mp h
    exact hmoved.trans ((Market.adjustLiquidationDebt_sameBooks hdebt).trans
      (@leave_sameBooks _ _ _ _ _ vault _ _ _ _ h))
  · rw [if_neg hrule] at h
    exact hmoved.trans (@leave_sameBooks _ _ _ _ _ vault _ _ _ _ h)

theorem VaultClawback.payBack_sameBooks {vaultID : UInt256} {vault vault' : VaultEntry}
    {assets : STAmount}
    (h : (do
      let m ←
        if assets.positive then do
          let m ← m.accountSend G vault.account tx.account assets
          failIf (← m.holdsLess G vault.account (.zeroOf assets.asset)) .tefInternal
          pure m
        else pure m
      return (⟨m.setVault vaultID vault', some vaultID⟩ : LendingApplied)) = .ok a) :
    m.SameBooks a.view := by
  split_ifs at h
  · simp only [Except.bind_eq_ok, Except.pure_eq_ok] at h
    obtain ⟨m₁, hsend, _, -, _, -, m₂, rfl, rfl⟩ := h
    exact (Market.accountSend_sameBooks hsend).trans (Market.sameBooks_setVault m₁ _ _)
  · cases h
    exact Market.sameBooks_setVault m _ _

theorem VaultClawback.seize_sameBooks {vaultID : UInt256} {vault : VaultEntry} {holder : AccountID}
    {recovered : STAmount × Nat}
    (h : (do
      failIf (recovered.2 = 0) .tecPrecisionLoss
      let value ← number (recovered.1.toNumber m.env)
      let assetsTotal ← number (Number.sub m.env vault.assetsTotal value)
      let assetsAvailable ← number (Number.sub m.env vault.assetsAvailable value)
      let vault := { vault with assetsTotal, assetsAvailable }
      let m ← (m.setVault vaultID vault).accountSendMPT holder vault.account vault.shareMPTID
        recovered.2
      let m ←
        if holder = vault.owner then pure m else m.removeEmptyHolding G vault.shareMPTID holder
      let m ←
        if recovered.1.positive then do
          let m ← m.accountSend G vault.account tx.account recovered.1
          failIf (← m.holdsLess G vault.account (.zeroOf recovered.1.asset)) .tefInternal
          pure m
        else pure m
      return (⟨m.setVault vaultID (vault.associateAsset G), some vaultID⟩ : LendingApplied)) =
        .ok a) : m.SameBooks a.view := by
  simp only [Except.bind_eq_ok] at h
  obtain ⟨_, -, _, -, total, -, available, -, m₁, hgive, h⟩ := h
  have hmoved : m.SameBooks m₁ :=
    (Market.sameBooks_setVault m _ _).trans (Market.accountSendMPT_sameBooks hgive)
  by_cases howner : holder = vault.owner
  · rw [if_pos howner] at h
    exact hmoved.trans (@payBack_sameBooks _ _ _ _ _ vault _ _ h)
  · rw [if_neg howner] at h
    obtain ⟨m₂, hremove, h⟩ := Except.bind_eq_ok.mp h
    exact hmoved.trans ((Market.removeEmptyHolding_sameBooks hremove).trans
      (@payBack_sameBooks _ _ _ _ _ vault _ _ h))

theorem VaultClawback.doApply_sameBooks {vaultID : UInt256} {holder : AccountID}
    {amount : Option STAmount} (h : VaultClawback.doApply G m tx vaultID holder amount = .ok a) :
    m.SameBooks a.view := by
  rw [VaultClawback.doApply] at h
  obtain ⟨vault, -, h⟩ := Except.bind_eq_ok.mp h
  obtain ⟨issuance, -, h⟩ := Except.bind_eq_ok.mp h
  by_cases hall : tx.account = vault.owner ∧
      (clawbackAmount vault amount tx.account).asset = .mpt vault.shareMPTID
  · rw [if_pos hall] at h
    obtain ⟨recovered, -, h⟩ := Except.bind_eq_ok.mp h
    exact @seize_sameBooks _ _ _ _ _ vault _ recovered h
  · rw [if_neg hall] at h
    obtain ⟨recovered, -, h⟩ := Except.bind_eq_ok.mp h
    exact @seize_sameBooks _ _ _ _ _ vault _ recovered h

theorem SharePayment.doApply_sameBooks {destination : AccountID} {shares : MPTID} {amount : Nat}
    (h : SharePayment.doApply G m tx destination shares amount = .ok a) : m.SameBooks a.view := by
  simp only [SharePayment.doApply, Except.bind_eq_ok] at h
  obtain ⟨_, -, _, -, _, -, _, -, _, -, _, -, h⟩ := h
  cases hsend : m.accountSendMPT tx.account destination shares amount with
  | ok view =>
    rw [hsend] at h
    cases h
    exact Market.accountSendMPT_sameBooks hsend
  | error ter =>
    rw [hsend] at h
    cases ter <;> cases h

end FalconLedger
