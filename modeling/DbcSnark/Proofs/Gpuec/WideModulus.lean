import DbcSnark.Model.Gpuec.Wide
import DbcSnark.ToMathlib.Pocklington
import Mathlib.Data.ZMod.Basic
import Mathlib.Tactic.NormNum.Prime
import Mathlib.Tactic.ReduceModChar

/-! # The modulus of 512 bits is prime

Each prime of the chain is certified by factors of its predecessor, of which one or two suffice.
-/

namespace DbcSnark.Gpuec

namespace Wide

private theorem prime_58_bits : Nat.Prime 194258487508339201 := by
  apply Pocklington.prime_of_factors (by norm_num)
    {344873, 1559} (by norm_num) 2 (by reduce_mod_char)
  intro q member
  simp only [Finset.mem_insert, Finset.mem_singleton] at member
  rcases member with rfl | rfl
  · exact ⟨by norm_num, 563275430400,
      3159840458364736,
      by norm_num, by reduce_mod_char⟩
  · exact ⟨by norm_num, 124604546188800,
      188443807237534260,
      by norm_num, by reduce_mod_char⟩

private theorem prime_61_bits : Nat.Prime 1165550925050035207 := by
  apply Pocklington.prime_of_factors (by norm_num)
    {194258487508339201} (by norm_num) 2 (by reduce_mod_char)
  intro q member
  rw [Finset.mem_singleton] at member
  subst member
  exact ⟨prime_58_bits, 6,
    592025866692081375,
    by norm_num, by reduce_mod_char⟩

private theorem prime_50_bits : Nat.Prime 893122192639877 := by
  apply Pocklington.prime_of_factors (by norm_num)
    {20511923, 113} (by norm_num) 2 (by reduce_mod_char)
  intro q member
  simp only [Finset.mem_insert, Finset.mem_singleton] at member
  rcases member with rfl | rfl
  · exact ⟨by norm_num, 43541612,
      642235537335030,
      by norm_num, by reduce_mod_char⟩
  · exact ⟨by norm_num, 7903736218052,
      822113147232918,
      by norm_num, by reduce_mod_char⟩

private theorem prime_150_bits :
    Nat.Prime 759542298563677501831976173768784655735810083 := by
  apply Pocklington.prime_of_factors (by norm_num)
    {1165550925050035207, 893122192639877} (by norm_num) 2 (by reduce_mod_char)
  intro q member
  simp only [Finset.mem_insert, Finset.mem_singleton] at member
  rcases member with rfl | rfl
  · exact ⟨prime_61_bits, 651659470418310195529282126,
      513232017952630706366732403313586338950798890,
      by norm_num, by reduce_mod_char⟩
  · exact ⟨prime_50_bits, 850434917890276494078091076666,
      275653574654037838676438805323021765863718050,
      by norm_num, by reduce_mod_char⟩

private theorem prime_197_bits :
    Nat.Prime 192759042152504430942975492399958407719919141765784358979937 := by
  apply Pocklington.prime_of_factors (by norm_num)
    {759542298563677501831976173768784655735810083} (by norm_num) 2 (by reduce_mod_char)
  intro q member
  rw [Finset.mem_singleton] at member
  subst member
  exact ⟨prime_150_bits, 253783156668192,
    38085371647705520683735783737559480963381312894112106157154,
    by norm_num, by reduce_mod_char⟩

private theorem prime_298_bits :
    Nat.Prime 365086220243912082140599205957182956142584041919992534117126901115331391552793485316204361 := by
  apply Pocklington.prime_of_factors (by norm_num)
    {192759042152504430942975492399958407719919141765784358979937} (by norm_num) 2 (by reduce_mod_char)
  intro q member
  rw [Finset.mem_singleton] at member
  subst member
  exact ⟨prime_197_bits, 1894003083679302679144080606280,
    11445083686193145995368388034697076360748258380416512877374732013307052988310478389698205,
    by norm_num, by reduce_mod_char⟩

private theorem prime_371_bits :
    Nat.Prime 3818737155136865751500890745445231132382610329538888738805516353314483300536529694168567044204090488233311559089 := by
  apply Pocklington.prime_of_factors (by norm_num)
    {365086220243912082140599205957182956142584041919992534117126901115331391552793485316204361} (by norm_num) 2
    (by reduce_mod_char)
  intro q member
  rw [Finset.mem_singleton] at member
  subst member
  exact ⟨prime_298_bits, 10459822757992861532208,
    1679651316761310696825303284127585935381736971894161229006077058619727262991292725890544106453479312241909036784,
    by norm_num, by reduce_mod_char⟩

private theorem prime_512_bits :
    Nat.Prime 13407807929942597099574024998036615799469062179260703058865036070489771521152295962958807694515385689971384833870203551742690833792597524281186010039058431 := by
  apply Pocklington.prime_of_factors (by norm_num)
    {3818737155136865751500890745445231132382610329538888738805516353314483300536529694168567044204090488233311559089}
    (by norm_num) 2 (by reduce_mod_char)
  intro q member
  rw [Finset.mem_singleton] at member
  subst member
  exact ⟨prime_371_bits, 3511058076334676010816776872750677287659870,
    2134232734834341761379943457508500591039037011347857547988091275973281829595759386312521534466214416601929069971297695317569827180054971173119697792989928,
    by norm_num, by reduce_mod_char⟩

theorem value_Pa : value Pa =
    13407807929942597099574024998036615799469062179260703058865036070489771521152295962958807694515385689971384833870203551742690833792597524281186010039058431 := by
  decide

instance : Fact (Nat.Prime (value Pa)) := ⟨value_Pa ▸ prime_512_bits⟩

end Wide

end DbcSnark.Gpuec
