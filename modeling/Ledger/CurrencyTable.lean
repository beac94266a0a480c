import Ledger.Money
import Ledger.Lib.BinarySearch
import Mathlib.Data.String.Basic
import Mathlib.Order.Compare

/-!
# The lookup in the currency table

`Currency::try_from` searches the table by halves. That finds the same codes as going
through the table does because the table is sorted.
-/

namespace Ledger

/-- `str` is ordered by its UTF-8 bytes, which is the order of the characters. -/
def Currency.against (value code : String) : Ordering := compare code value

def Currency.trySearch (value : String) : Except MoneyError Currency :=
  if (BinarySearch.search (Currency.against value) ISO_4217).isOk then .ok ⟨value⟩
  else .error (.unknownCurrency value)

theorem iso_4217_sorted : ISO_4217.Pairwise (· < ·) := by
  rw [← List.isChain_iff_pairwise]
  decide +kernel

theorem Currency.sorted_against {table : List String} (h : table.Pairwise (· < ·)) (value : String) :
    BinarySearch.Sorted (Currency.against value) table := by
  refine h.imp fun {a b} hlt => ⟨fun hb => ?_, fun ha => ?_⟩
  · exact compare_lt_iff_lt.mpr (hlt.trans (compare_lt_iff_lt.mp hb))
  · exact compare_gt_iff_gt.mpr (lt_trans (compare_gt_iff_gt.mp ha) hlt)

/-- **The search by halves is the membership test**: for every text, with the same answer. -/
theorem try_from_searches (value : String) : Currency.trySearch value = Currency.tryFrom value := by
  have hfound : (BinarySearch.search (Currency.against value) ISO_4217).isOk = ISO_4217.contains value := by
    rw [Bool.eq_iff_iff, BinarySearch.search_ok_iff (Currency.sorted_against iso_4217_sorted value),
      List.contains_iff_mem]
    constructor
    · rintro ⟨code, hmem, he⟩
      exact compare_eq_iff_eq.mp he ▸ hmem
    · intro hmem
      exact ⟨value, hmem, compare_eq_iff_eq.mpr rfl⟩
  unfold Currency.trySearch Currency.tryFrom
  rw [hfound]

end Ledger
