import Ledger.AsClient

/-!
# What other sessions leave

Whatever other sessions commit, what a session has locked and what it has written stay,
committed transactions stay, and a set of entries that is not empty is final.
-/

namespace Ledger

open Keyed Runs Transfers

/-! ## Accounts that other clients open -/

theorem NewAccount.row_storable {sch : Schema} {now : Timestamp} {new : NewAccount} {row : Row.Account}
    (h : new.row sch now = .ok row) : row.Stored := by
  simp only [NewAccount.row, Bind.ok, notNull_ok] at h
  obtain ⟨n, hn, cu, hcu, _, _, _, _, n', rfl, cu', rfl, _, _, _, _, _, _, h⟩ := h
  rw [← text_ok hn] at hn
  rw [← text_ok hcu] at hcu
  simp only [Row.Account.checks, Bind.ok, check_ok] at h
  obtain ⟨_, _, _, hup, _, hlen, h⟩ := h
  cases h
  exact ⟨(text_plain hn).1, (text_plain hcu).1, hlen, hup⟩

/-- Committed or not, an account row has passed the checks of its columns. -/
structure Db.Stored (db : Db) : Prop where
  committed : ∀ a ∈ db.tables.accounts, a.Stored
  pending : ∀ x txn, db.txns x = some txn → ∀ v ∈ txn.works, ∀ a ∈ v.accounts, a.Stored

theorem Wrote.accounts {sch : Schema} {db : Db} {x : Xid} {txn : Txn} {s : Stmt} {w : Work}
    (h : Wrote sch db x txn s w) : ∀ a ∈ w.accounts, a ∈ txn.work.accounts ∨ a.Stored := by
  cases h with
  | account hrow =>
    intro a ha
    rcases List.mem_append.mp ha with ha | ha
    · exact Or.inl ha
    · rw [List.mem_singleton.mp ha]
      exact Or.inr (NewAccount.row_storable hrow)
  | _ => exact fun a ha => Or.inl ha

theorem Db.Stored.step {sch : Schema} {db db' : Db} {cmd : Cmd} (h : db.Stored) (hi : DbInv db)
    (hc : cmd.truncates = false) (hs : db.step sch cmd = some db') : db'.Stored := by
  refine ⟨fun a ha => ?_, fun y ty hy v hv a ha => ?_⟩
  · rcases Db.step_tables hs with ht | ⟨x, txn, -, hx, -, -, ht⟩
    · exact h.committed a (ht ▸ ha)
    · have hw := hi.work hx
      rw [ht, Work.overlay_accounts hw.untruncated] at ha
      obtain ⟨b, hb, rfl⟩ := List.mem_map.mp ha
      have hst : b.Stored := by
        rcases List.mem_append.mp hb with hb | hb
        · exact h.committed b hb
        · exact h.pending x txn hx txn.work (List.mem_cons_self ..) b hb
      exact hst.of_terms (hw.current_terms hb)
  · rcases Db.step_works hs hy hv with ⟨-, rfl⟩ | ⟨ty₀, hy₀, rfl | hv₀ | ⟨s, r, rfl, hex⟩⟩
    · cases ha
    · cases ha
    · exact h.pending y ty₀ hy₀ v hv₀ a ha
    · rcases (exec_ok hi.bounded hc hex).accounts a ha with ha | hst
      · exact h.pending y ty₀ hy₀ ty₀.work (List.mem_cons_self ..) a ha
      · exact hst

/-! ## What other sessions leave -/

/-- Committed transactions stay, and an entry set with something in it is final. -/
structure Tables.Ages (t t' : Tables) : Prop where
  transactions : ∀ r ∈ t.transactions, r ∈ t'.transactions
  entries : ∀ id, Transactions.entriesOf t id ≠ [] → Transactions.entriesOf t' id = Transactions.entriesOf t id

theorem Tables.Ages.refl (t : Tables) : t.Ages t := ⟨fun _ h => h, fun _ _ => rfl⟩

theorem Tables.Ages.trans {t₁ t₂ t₃ : Tables} (h : t₁.Ages t₂) (h' : t₂.Ages t₃) : t₁.Ages t₃ where
  transactions r hr := h'.transactions r (h.transactions r hr)
  entries id hne := by
    have he := h.entries id hne
    exact (h'.entries id (by rw [he]; exact hne)).trans he

/-- What the sessions in `mine` leave of everything else. -/
structure Db.Spares (mine : Xid → Prop) (db db' : Db) : Prop where
  inv : DbInv db'
  stored : db'.Stored
  ages : db.tables.Ages db'.tables
  frame : ∀ y ty, ¬ mine y → db.txns y = some ty → db'.txns y = some ty ∧
    ∀ id, (id, .update) ∈ ty.work.locks → ∀ a, Spec.findAccount db.tables id = some a →
      Spec.findAccount db'.tables id = some a

section
variable {sch : Schema} {mine : Xid → Prop} {db db' : Db}

theorem Db.spares_step {cmd : Cmd} (hi : DbInv db) (hst : db.Stored) (hc : cmd.truncates = false)
    (hs : db.step sch cmd = some db') : Db.Spares (fun x => cmd.session = some x) db db' where
  inv := hi.step hc hs
  stored := hst.step hi hc hs
  ages := by
    refine ⟨(Db.step_keeps (hi.not_commitsTruncation cmd) hs).transactions, fun id hne => ?_⟩
    obtain ⟨e, he⟩ := List.exists_mem_of_ne_nil _ hne
    obtain ⟨hm, hid⟩ := List.mem_filter.mp he
    have hfix := hi.entries_fixed hs hm
    rwa [of_decide_eq_true hid] at hfix
  frame _ _ hne hy := hi.step_frame (Db.step_stepped hs) hy hne

theorem Db.Spares.trans {db'' : Db} (h : Db.Spares mine db db') (h' : Db.Spares mine db' db'') :
    Db.Spares mine db db'' where
  inv := h'.inv
  stored := h'.stored
  ages := h.ages.trans h'.ages
  frame y ty hne hy := by
    obtain ⟨hy', hf⟩ := h.frame y ty hne hy
    obtain ⟨hy'', hf'⟩ := h'.frame y ty hne hy'
    exact ⟨hy'', fun id hid a ha => hf' id hid a (hf id hid a ha)⟩

theorem Db.Spares.of_mono {mine' : Xid → Prop} (hm : ∀ x, mine x → mine' x) (h : Db.Spares mine db db') :
    Db.Spares mine' db db' :=
  { h with frame := fun y ty hne => h.frame y ty fun hy => hne (hm y hy) }

theorem Db.Spares.refl (hi : DbInv db) (hst : db.Stored) : Db.Spares mine db db :=
  ⟨hi, hst, Tables.Ages.refl _, fun _ _ _ hy => ⟨hy, fun _ _ _ ha => ha⟩⟩

theorem Db.Leads.spares (h : Db.Leads sch mine db db') (hi : DbInv db) (hst : db.Stored) :
    Db.Spares mine db db' := by
  refine h.invariant (P := Db.Spares mine db) ?_ (Db.Spares.refl hi hst)
  rintro d cmd d' hd ⟨hplain, -, hmine⟩ hs
  exact hd.trans ((Db.spares_step hd.inv hd.stored hplain hs).of_mono hmine)

end

end Ledger
