import Sprax.Amounts
import Sprax.Faucet

/-!
# Balances between the node and the wallet

The node serves a balance under the name `balance_atto` as the text that shows it in
whole units. The wallet client takes the text for an integer, and for zero if it is
none. The text ends in the name of the unit, so every balance arrives as zero. Read
as an atomic amount by the node itself, the text of a whole number of units is off by
the size of a unit, and any other is refused.
-/
namespace Sprax
open Decimal Literals

namespace Rpc

inductive BalanceReply
  | ok (address balanceAtto : String) (nonce : ℕ)
  | badRequest (error : String)
  | internalServerError (error : String)
  deriving DecidableEq

def handleAccountBalance {P : Primitives} (B : Bech32 P) (L : ChainLedger) (addressStr : String) :
    BalanceReply :=
  match parseAddress B addressStr with
  | none => .badRequest "Invalid address format"
  | some addr =>
    match StateAccessor.getAccount P L.store addr with
    | .ok acc => .ok addressStr acc.balance.toSprxString acc.nonce
    | .error e =>
      let reason := e.display
      .internalServerError s!"Storage initialization error: {reason}"

end Rpc

namespace WalletCore

structure FiatEstimates where
  usd : String
  inr : String
  eur : String
  jpy : String
  deriving DecidableEq

structure Balance where
  atto : String
  sprx : String
  fiatEstimates : FiatEstimates
  deriving DecidableEq

/-- What the client answers when anything goes wrong. -/
def noBalance : Balance := ⟨"0", "0", ⟨"0.00", "0.00", "0.00", "0"⟩⟩

/-- The estimates are floating-point products of the shown amount. -/
def getBalance (js : Libraries) (fiatEstimates : String → FiatEstimates)
    (reply : Rpc.BalanceReply) : Balance :=
  match reply with
  | .ok _ balanceAtto _ =>
    let attoStr := if balanceAtto = "" then "0" else balanceAtto
    match js.bigInt attoStr with
    | .ok atto =>
      let sprx := attoToSprx atto
      ⟨attoStr, sprx, fiatEstimates sprx⟩
    | .error _ => noBalance
  | .badRequest _ | .internalServerError _ => noBalance

/-- The balance names the amount, in atomic and in whole units. -/
structure Balance.Shows (b : Balance) (a : Amount) : Prop where
  atto_eq : Js.bigInt b.atto.toList = some (a.atto : ℤ)
  sprx_numeral : IsNumeral b.sprx.toList
  sprx_eq : numeralValue b.sprx.toList = a.atto / 10 ^ 18

/-- The unit at the end makes the text no integer. -/
theorem bigInt_toSprxString (a : Amount) : Js.bigInt a.toSprxString.toList = none := by
  have htext : a.toSprxString.toList = fixedText 18 a.atto ++ " SPRX".toList := by
    rw [a.toSprxString_eq, String.toList_append, String.toList_ofList]
  have hstrip : strip isSpace (fixedText 18 a.atto ++ " SPRX".toList) =
      fixedText 18 a.atto ++ " SPRX".toList := by
    refine strip_of_ends (fun c hc => ?_) (fun c hc => ?_)
    · rw [List.head?_append_of_ne_nil _ (fixedText_ne_nil 18 a.atto)] at hc
      exact solid_fixedText 18 a.atto c (List.mem_of_head? hc)
    · rw [List.getLast?_append_of_ne_nil _ (by decide)] at hc
      cases hc
      rfl
  rw [htext]
  cases hread : Js.bigInt (fixedText 18 a.atto ++ " SPRX".toList) with
  | none => rfl
  | some n =>
    have hsolid := Js.solid_of_bigInt hread
    rw [hstrip] at hsolid
    cases hsolid ' ' (List.mem_append_right _ (by decide))

theorem getBalance_handleAccountBalance {P : Primitives} {B : Bech32 P} (js : Libraries)
    (fiatEstimates : String → FiatEstimates) {L : ChainLedger} {addressStr : String}
    {addr : Address} {acc : AccountState} (haddr : Rpc.parseAddress B addressStr = some addr)
    (hacc : StateAccessor.getAccount P L.store addr = .ok acc) :
    getBalance js.standard fiatEstimates (Rpc.handleAccountBalance B L addressStr) = noBalance := by
  have hread := bigInt_toSprxString acc.balance
  have hne : acc.balance.toSprxString ≠ "" := by
    intro hempty
    rw [hempty] at hread
    cases hread
  have hbig : ∃ e, js.standard.bigInt acc.balance.toSprxString = .error e := by
    simp only [Libraries.standard, hread]
    exact ⟨_, rfl⟩
  obtain ⟨e, he⟩ := hbig
  unfold Rpc.handleAccountBalance getBalance
  rw [haddr]
  dsimp only
  rw [hacc]
  dsimp only
  rw [if_neg hne, he]

theorem shows_noBalance_iff (a : Amount) : noBalance.Shows a ↔ a.atto = 0 := by
  have hatto : Js.bigInt noBalance.atto.toList = some 0 := by decide
  have hsprx : numeralValue noBalance.sprx.toList = 0 := by
    simp [noBalance, numeralValue, whole, fraction, value, Nat.ofDigitChars]
  constructor
  · intro h
    have hzero := hatto.symm.trans h.atto_eq
    rw [Option.some.injEq] at hzero
    exact_mod_cast hzero.symm
  · intro hzero
    refine ⟨?_, by decide, ?_⟩
    · rw [hatto, hzero]
      rfl
    · rw [hsprx, hzero]
      simp

end WalletCore

/-- The reader of atomic amounts takes the unit off. -/
theorem Amount.clean_toSprxString (a : Amount) :
    Text.trim (String.ofList (trimUnit (Text.trim a.toSprxString).toList.reverse).reverse) =
      String.ofList (fixedText 18 a.atto) := by
  have hsolid : ∀ c ∈ fixedText 18 a.atto, Text.isWhiteSpace c = false := by
    intro c hc
    rcases (isNumeral_fixedText 18 a.atto).isDigit_or_dot hc with hdigit | rfl
    · exact Text.isWhiteSpace_of_isDigit hdigit
    · decide
  obtain ⟨c, cs, hcs⟩ := List.exists_cons_of_ne_nil (fixedText_ne_nil 18 a.atto)
  have htext : a.toSprxString = String.ofList (c :: (cs ++ " SPR".toList) ++ ['X']) := by
    apply String.toList_injective
    rw [a.toSprxString_eq, hcs]
    simp
  have htrim : Text.trim a.toSprxString = a.toSprxString := by
    rw [htext]
    exact Text.trim_of_ends (hsolid c (hcs ▸ List.mem_cons_self)) (by decide)
  have hreverse : a.toSprxString.toList.reverse =
      'X' :: 'R' :: 'P' :: 'S' :: ' ' :: (fixedText 18 a.atto).reverse := by
    rw [a.toSprxString_eq]
    simp
  have hunit : trimUnit ('X' :: 'R' :: 'P' :: 'S' :: ' ' :: (fixedText 18 a.atto).reverse) =
      ' ' :: (fixedText 18 a.atto).reverse := rfl
  rw [htrim, hreverse, hunit, List.reverse_cons, List.reverse_reverse]
  exact Text.trim_append_space (fixedText_ne_nil 18 a.atto) hsolid

theorem parseUnsigned_of_not_isDigit (bits : ℕ) {cs : List Char} {c : Char}
    (hplus : cs.head? ≠ some '+') (hc : c ∈ cs) (hdigit : c.isDigit = false) :
    ∃ e, Text.parseUnsigned bits (String.ofList cs) = .error e := by
  unfold Text.parseUnsigned
  rw [String.toList_ofList]
  split
  · exact ⟨_, rfl⟩
  · exact ⟨_, rfl⟩
  · exact ⟨_, rfl⟩
  · exact absurd rfl hplus
  · cases hparse : Text.parseDigits (2 ^ bits) cs 0 with
    | error e => exact ⟨e, rfl⟩
    | ok n =>
      rw [Text.isDigit_of_parseDigits hparse c hc] at hdigit
      cases hdigit

theorem Amount.fromAttoStr_toSprxString (a r : Amount) :
    Amount.fromAttoStr a.toSprxString = .ok r ↔
      a.atto % attoSprxPerSprx = 0 ∧ r.atto = a.atto / attoSprxPerSprx := by
  have hunit : attoSprxPerSprx = 10 ^ 18 := rfl
  unfold Amount.fromAttoStr
  rw [a.clean_toSprxString, hunit]
  dsimp only
  by_cases hzero : a.atto % 10 ^ 18 = 0
  · have hlt : a.atto / 10 ^ 18 < 2 ^ 128 := (Nat.div_le_self _ _).trans_lt a.lt
    have hparse : Text.parseUnsigned 128 (String.ofList (fixedText 18 a.atto)) =
        .ok (a.atto / 10 ^ 18) := by
      rw [fixedText, if_pos hzero, ← Nat.toString_eq_ofList_toDigits]
      exact Text.parseUnsigned_toString hlt
    rw [hparse]
    dsimp only
    rw [dif_pos hlt, Except.ok.injEq]
    constructor
    · rintro rfl
      exact ⟨hzero, rfl⟩
    · rintro ⟨-, hr⟩
      exact Amount.ext_atto hr.symm
  · have hdot : '.' ∈ fixedText 18 a.atto := by
      rw [fixedText, if_neg hzero]
      exact List.mem_append_right _ List.mem_cons_self
    have hplus : (fixedText 18 a.atto).head? ≠ some '+' := by
      intro hhead
      rcases (isNumeral_fixedText 18 a.atto).isDigit_or_dot (List.mem_of_head? hhead) with h | h
      · cases h
      · cases h
    obtain ⟨e, he⟩ := parseUnsigned_of_not_isDigit 128 hplus hdot (by decide)
    rw [he]
    constructor
    · intro h
      cases h
    · rintro ⟨h, -⟩
      exact absurd h hzero

/-- A balance survives the way to the wallet only if it is zero, and a text is not mistaken for
another amount only if it is that of zero or has a fraction. -/
theorem balance_survives_iff {P : Primitives} (B : Bech32 P) (js : WalletCore.Libraries)
    (fiatEstimates : String → WalletCore.FiatEstimates) (L : ChainLedger) (addressStr : String)
    (addr : Address) (acc : AccountState) (haddr : Rpc.parseAddress B addressStr = some addr)
    (hacc : StateAccessor.getAccount P L.store addr = .ok acc) :
    ((WalletCore.getBalance js.standard fiatEstimates
        (Rpc.handleAccountBalance B L addressStr)).Shows acc.balance ↔ acc.balance.atto = 0) ∧
    ∀ a : Amount, (∀ r, Amount.fromAttoStr a.toSprxString = .ok r → r = a) ↔
      a.atto = 0 ∨ a.atto % attoSprxPerSprx ≠ 0 := by
  constructor
  · rw [WalletCore.getBalance_handleAccountBalance js fiatEstimates haddr hacc,
      WalletCore.shows_noBalance_iff]
  · intro a
    constructor
    · intro h
      by_cases hzero : a.atto % attoSprxPerSprx = 0
      · have hlt : a.atto / attoSprxPerSprx < 2 ^ 128 := (Nat.div_le_self _ _).trans_lt a.lt
        have hsame := h ⟨_, hlt⟩ ((a.fromAttoStr_toSprxString _).mpr ⟨hzero, rfl⟩)
        have hdiv : a.atto / attoSprxPerSprx = a.atto := congrArg Amount.atto hsame
        refine Or.inl ?_
        unfold attoSprxPerSprx at hdiv
        omega
      · exact Or.inr hzero
    · intro hcase r hr
      obtain ⟨hzero, hr⟩ := (a.fromAttoStr_toSprxString r).mp hr
      rcases hcase with hnone | hfraction
      · exact Amount.ext_atto (by rw [hr, hnone, Nat.zero_div])
      · exact absurd hzero hfraction

section Development
open Devnet

/-- An account with two whole units. -/
def richLedger : ChainLedger :=
  ChainLedger.initFromGenesis walletPrimitives
    { devGenesis [] with accounts := [⟨addressOf 3, ⟨2000000000000000000, by decide⟩⟩] }

def noEstimates : String → WalletCore.FiatEstimates := fun _ => ⟨"", "", "", ""⟩

/-- The wallet shows the balance of an account that has nothing, and not that of the account
with two units. -/
theorem balance_survives_iff_devnet :
    (WalletCore.getBalance walletJs.standard noEstimates
      (Rpc.handleAccountBalance walletBech32 richLedger (addressOf 4).toHex)).Shows Amount.zero ∧
    ¬ (WalletCore.getBalance walletJs.standard noEstimates
      (Rpc.handleAccountBalance walletBech32 richLedger (addressOf 3).toHex)).Shows
        ⟨2000000000000000000, by decide⟩ := by
  constructor
  · exact (balance_survives_iff walletBech32 walletJs noEstimates richLedger (addressOf 4).toHex
      (addressOf 4) AccountState.default (by decide +kernel) (by decide +kernel)).1.mpr rfl
  · intro hshows
    have hzero := (balance_survives_iff walletBech32 walletJs noEstimates richLedger
      (addressOf 3).toHex (addressOf 3)
      { AccountState.default with balance := ⟨2000000000000000000, by decide⟩ } (by decide +kernel)
      (by decide +kernel)).1.mp hshows
    cases hzero

/-- Two whole units are served as such, arrive as nothing, and are two atomic units when they are
read back. -/
theorem two_units_lost :
    Rpc.handleAccountBalance walletBech32 richLedger (addressOf 3).toHex =
      .ok (addressOf 3).toHex "2 SPRX" 0 ∧
    WalletCore.getBalance walletJs.standard noEstimates
      (Rpc.handleAccountBalance walletBech32 richLedger (addressOf 3).toHex) =
        WalletCore.noBalance ∧
    ¬ WalletCore.noBalance.Shows ⟨2000000000000000000, by decide⟩ ∧
    Amount.fromAttoStr "2 SPRX" = .ok ⟨2, by decide⟩ := by
  refine ⟨by decide +kernel, by decide +kernel, ?_, by decide +kernel⟩
  rw [WalletCore.shows_noBalance_iff]
  decide

end Development

end Sprax
