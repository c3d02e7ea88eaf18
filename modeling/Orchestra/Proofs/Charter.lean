/-
  The charter: what a region stands for, from its first moment to its last.

  A region is founded for the tokens of one group and one transaction, below another region, and
  none of that ever changes, whatever becomes of the groups and transactions meanwhile.  A CHARTER
  is the list of these facts for all regions that were ever founded.  The engine does not keep
  one; it is what the proofs remember of the past.

  `Aligned` says that the records of a state agree with a charter: a token has the group and the
  transaction of its region, so do the continuations that are kept, and group and transaction lie
  below those of the region above.  A region without a record still has its place in the charter,
  which is why a continuation can be compared with a region that is gone.

  The lemmas `mono_tokens`, `mono_groups`, `mono_regions` and `mono_transactions` cover every move
  that only takes away; the moves that found something follow.
-/
import Orchestra.Proofs.Kinship

namespace Orchestra

variable {p : RegionId} {txn : Transaction}

/-! ## Charters -/

/-- The ways in which a publication can leave a part of the program. -/
inductive Exit where
  | ret
  | publish
  | resolve
  | buffer
deriving DecidableEq

/-- What every region was founded for. -/
structure Charter where
  /-- The group that the tokens of a region belong to. -/
  group : RegionId → GroupId
  /-- The transaction that they belong to. -/
  txn : RegionId → Option TxnId
  /-- How many left sides of an `otherwise` a publication has to escape from here, and where it
      goes then. -/
  way : RegionId → Nat × Exit
  /-- The group below which a group was founded. -/
  above : GroupId → Option GroupId
  /-- A transaction and those around it, the innermost first. -/
  lineage : TxnId → List TxnId

namespace Charter

/-- The lineage of a transaction that may not be there. -/
def lineage? (m : Charter) : Option TxnId → List TxnId
  | none => []
  | some x => m.lineage x

/-- `m'` says the same as `m` about everything founded so far. -/
structure Extends (m m' : Charter) (groups : Store .group Group) (regions : Store .region Region)
    (transactions : Store .transaction Transaction) : Prop where
  group : ∀ {r : RegionId}, r.index < regions.next.index → m'.group r = m.group r
  txn : ∀ {r : RegionId}, r.index < regions.next.index → m'.txn r = m.txn r
  way : ∀ {r : RegionId}, r.index < regions.next.index → m'.way r = m.way r
  above : ∀ {g : GroupId}, g.index < groups.next.index → m'.above g = m.above g
  lineage : ∀ {x : TxnId}, x.index < transactions.next.index → m'.lineage x = m.lineage x

/-- The charter with an entry for one more region. -/
def withRegion (m : Charter) (r : RegionId) (group : GroupId) (txn : Option TxnId)
    (way : Nat × Exit) : Charter :=
  { m with
    group := fun r' => if r' = r then group else m.group r'
    txn := fun r' => if r' = r then txn else m.txn r'
    way := fun r' => if r' = r then way else m.way r' }

/-- The charter with an entry for one more group. -/
def withGroup (m : Charter) (g above : GroupId) : Charter :=
  { m with above := fun g' => if g' = g then some above else m.above g' }

/-- The charter with an entry for one more transaction. -/
def withTxn (m : Charter) (x : TxnId) (outer : Option TxnId) : Charter :=
  { m with lineage := fun x' => if x' = x then x :: m.lineage? outer else m.lineage x' }

end Charter

/-- A continuation has the group and the transaction of its region. -/
structure Kept (m : Charter) (regions : Store .region Region) (k : Continuation) : Prop where
  known : k.region.index < regions.next.index
  group : m.group k.region = k.group
  txn : m.txn k.region = k.txn

/-! ## Alignment -/

/-- The region of the body of a transaction, or that of its votes. -/
@[simp]
abbrev RegionKind.Serves (x : TxnId) (kind : RegionKind) : Prop :=
  kind = .transaction x ∨ kind = .votes x

/-- The records agree with the charter. -/
structure Aligned (m : Charter) (tokens : Store .token Token) (groups : Store .group Group)
    (regions : Store .region Region) (transactions : Store .transaction Transaction) : Prop where
  token : ∀ {t tok}, tokens.get? t = some tok →
    m.group tok.region = tok.group ∧ m.txn tok.region = tok.txn
  root : ∀ {r reg}, regions.get? r = some reg → reg.kind = .root →
    reg.parent = none ∧ m.group r = rootGroup ∧ m.txn r = none ∧ m.way r = (0, .publish)
  pruning : ∀ {r reg c}, regions.get? r = some reg → reg.kind = .pruning c →
    (∃ p, reg.parent = some p ∧ m.txn r = m.txn p ∧ m.above c = some (m.group p)) ∧
      m.group r = c ∧ m.way r = (0, .resolve) ∧ c.index < groups.next.index ∧
      ∀ grp, groups.get? c = some grp → ∃ ws, grp.kind = .cell ws r
  otherwise : ∀ {r reg b k}, regions.get? r = some reg → reg.kind = .otherwise b k →
    reg.parent = some k.region ∧ Kept m regions k ∧ m.group r = k.group ∧ m.txn r = k.txn ∧
      m.way r = ((m.way k.region).1 + 1, (m.way k.region).2)
  atomic : ∀ {r reg x}, regions.get? r = some reg → reg.kind.Serves x →
    ∃ txn, transactions.get? x = some txn ∧ reg.parent = some txn.continuation.region ∧
      m.group r = txn.group ∧ m.txn r = some x
  body : ∀ {r reg x}, regions.get? r = some reg →
    (reg.kind = .transaction x → m.way r = (0, .buffer)) ∧
      (reg.kind = .votes x → m.way r = (0, .publish))
  /-- A transaction has one region at a time: that of its body or that of its votes. -/
  sole : ∀ {r reg r' reg' x}, regions.get? r = some reg → regions.get? r' = some reg' →
    reg.kind.Serves x → reg'.kind.Serves x → r = r'
  transaction : ∀ {x txn}, transactions.get? x = some txn →
    Kept m regions txn.continuation ∧ m.above txn.group = some txn.continuation.group ∧
      txn.group.index < groups.next.index ∧ txn.parent = txn.continuation.txn ∧
      ∀ grp, groups.get? txn.group = some grp → grp.kind = .transaction x
  scope : ∀ {x txn}, transactions.get? x = some txn →
    txn.scope.lineage = m.lineage x ∧ m.lineage x = x :: m.lineage? txn.parent ∧
      ∀ p, txn.parent = some p → p.index < x.index
  cell : ∀ {g grp ws r}, groups.get? g = some grp → grp.kind = .cell ws r →
    m.above g ≠ none ∧ r.index < regions.next.index ∧
      ∀ reg, regions.get? r = some reg → reg.kind = .pruning g
  txn_group : ∀ {g grp x}, groups.get? g = some grp → grp.kind = .transaction x →
    x.index < transactions.next.index ∧ ∀ txn, transactions.get? x = some txn → txn.group = g
  above : ∀ {g grp}, groups.get? g = some grp → grp.parent = none ∨ grp.parent = m.above g
  above_root : m.above rootGroup = none

namespace Aligned

variable {m m' : Charter} {tokens tokens' : Store .token Token} {groups groups' : Store .group Group}
  {regions regions' : Store .region Region}
  {transactions transactions' : Store .transaction Transaction}

/-- The group of a transaction is not the root. -/
theorem group_ne_root (h : Aligned m tokens groups regions transactions) {x : TxnId}
    (hx : transactions.get? x = some txn) : rootGroup ≠ txn.group := by
  intro e
  have habove := (h.transaction hx).2.1
  rw [← e, h.above_root] at habove
  cases habove

/-! ## Moves that found nothing

  Records may go, and may change in what the charter is not about. -/

section

variable (h : Aligned m tokens groups regions transactions)

include h

theorem mono_tokens (ht : ∀ {t tok'}, tokens'.get? t = some tok' → ∃ tok, tokens.get? t = some tok ∧
      tok'.group = tok.group ∧ tok'.region = tok.region ∧ tok'.txn = tok.txn) :
    Aligned m tokens' groups regions transactions := by
  refine { h with token := ?_ }
  grind [token]

/-- Groups may go or lose their parents, and cells may have other waiters. -/
theorem mono_groups (hg : ∀ {g grp'}, groups'.get? g = some grp' → ∃ grp, groups.get? g = some grp ∧
      (grp'.parent = none ∨ grp'.parent = grp.parent) ∧
      (grp'.kind = grp.kind ∨ ∃ ws ws' r, grp.kind = .cell ws r ∧ grp'.kind = .cell ws' r))
    (hn : groups'.next = groups.next) : Aligned m tokens groups' regions transactions := by
  refine { h with pruning := ?_, transaction := ?_, cell := ?_, txn_group := ?_, above := ?_ }
  · intro r reg c hr hkind
    obtain ⟨hp, hgr, hway, hlt, hcell⟩ := h.pruning hr hkind
    grind
  · grind [transaction]
  · intro g grp' ws r hg₀ hkind
    obtain ⟨grp, hgrp, -, ek⟩ := hg hg₀
    have hold : ∃ ws', grp.kind = .cell ws' r := by grind
    obtain ⟨ws', hws'⟩ := hold
    exact h.cell hgrp hws'
  · intro g grp' x hg₀ hkind
    obtain ⟨grp, hgrp, -, ek⟩ := hg hg₀
    exact h.txn_group hgrp (by grind)
  · grind [above]

/-- Regions may go, and it may be noted that one has published. -/
theorem mono_regions
    (hr : ∀ {r reg'}, regions'.get? r = some reg' → ∃ reg, regions.get? r = some reg ∧
      reg'.parent = reg.parent ∧
      (reg'.kind = reg.kind ∨ ∃ b b' k, reg.kind = .otherwise b k ∧ reg'.kind = .otherwise b' k))
    (hn : regions'.next = regions.next) : Aligned m tokens groups regions' transactions := by
  have kept : ∀ {k}, Kept m regions k → Kept m regions' k := fun hk =>
    ⟨hn ▸ hk.known, hk.group, hk.txn⟩
  constructor
  case token => exact h.token
  case root => grind [root]
  case pruning =>
    intro r reg' c hr' hkind
    obtain ⟨reg, hreg, ep, ek⟩ := hr hr'
    rw [ep]
    exact h.pruning hreg (by grind)
  case otherwise => grind [otherwise]
  case atomic => grind [atomic]
  case body => grind [body]
  case sole => grind [sole]
  case transaction => grind [transaction]
  case scope => exact h.scope
  case cell =>
    intro g grp ws r hg hkind
    obtain ⟨habove, hlt, hreg⟩ := h.cell hg hkind
    grind
  case txn_group => exact h.txn_group
  case above => exact h.above
  case above_root => exact h.above_root

theorem mono_transactions
    (hx : ∀ {x txn'}, transactions'.get? x = some txn' → ∃ txn, transactions.get? x = some txn ∧
      txn'.scope = txn.scope ∧ txn'.parent = txn.parent ∧ txn'.group = txn.group ∧
      txn'.continuation = txn.continuation)
    (hx' : ∀ {x txn r reg}, transactions.get? x = some txn → regions.get? r = some reg →
      reg.kind.Serves x → ∃ txn', transactions'.get? x = some txn')
    (hn : transactions'.next = transactions.next) :
    Aligned m tokens groups regions transactions' := by
  refine { h with atomic := ?_, transaction := ?_, scope := ?_, txn_group := ?_ }
  · grind [atomic]
  · grind [transaction]
  · grind [scope]
  · intro g grp x hg hkind
    obtain ⟨hlt, htxn⟩ := h.txn_group hg hkind
    grind

/-- A token may be added where the charter has it. -/
theorem insertToken {tok : Token} (hg : m.group tok.region = tok.group)
    (hx : m.txn tok.region = tok.txn) :
    Aligned m (tokens.insert tok) groups regions transactions := by
  refine { h with token := ?_ }
  grind [token]

end

/-! ## Moves that found something -/

section

variable (h : Aligned m tokens groups regions transactions)

include h

/-- What is there already agrees with a longer charter too. -/
theorem extend (he : m.Extends m' groups regions transactions)
    (htoken : ∀ {t tok}, tokens.get? t = some tok → tok.region.index < regions.next.index)
    (hparent : ∀ {r reg p}, regions.get? r = some reg → reg.parent = some p →
      p.index < regions.next.index) (hroot : rootGroup.index < groups.next.index) :
    Aligned m' tokens groups regions transactions := by
  have kept : ∀ {k}, Kept m regions k → Kept m' regions k := fun hk =>
    ⟨hk.known, (he.group hk.known).trans hk.group, (he.txn hk.known).trans hk.txn⟩
  constructor
  case token =>
    intro t tok ht
    rw [he.group (htoken ht), he.txn (htoken ht)]
    exact h.token ht
  case root =>
    intro r reg hr hkind
    have hlt := Store.lt_next hr
    rw [he.group hlt, he.txn hlt, he.way hlt]
    exact h.root hr hkind
  case pruning =>
    intro r reg c hr hkind
    have hlt := Store.lt_next hr
    obtain ⟨⟨p, hp, htxn, habove⟩, hgr, hway, hc, hcell⟩ := h.pruning hr hkind
    grind [Charter.Extends.group, Charter.Extends.txn, Charter.Extends.way, Charter.Extends.above]
  case otherwise =>
    intro r reg b k hr hkind
    have hlt := Store.lt_next hr
    obtain ⟨hp, hk, hgr, htxn, hway⟩ := h.otherwise hr hkind
    rw [he.group hlt, he.txn hlt, he.way hlt, he.way hk.known]
    exact ⟨hp, kept hk, hgr, htxn, hway⟩
  case atomic => grind [Store.lt_next, Charter.Extends.group, Charter.Extends.txn, atomic]
  case body =>
    intro r reg x hr
    rw [he.way (Store.lt_next hr)]
    exact h.body hr
  case sole => exact h.sole
  case transaction => grind [transaction, Charter.Extends.above]
  case scope =>
    intro x txn hx
    obtain ⟨hs, hl, hlt⟩ := h.scope hx
    have hxlt := Store.lt_next hx
    rw [he.lineage hxlt]
    refine ⟨hs, hl.trans ?_, hlt⟩
    cases hp : txn.parent with
    | none => rfl
    | some p =>
      show x :: m.lineage p = x :: m'.lineage p
      rw [he.lineage (Nat.lt_trans (hlt p hp) hxlt)]
  case cell =>
    intro g grp ws r hg hkind
    rw [he.above (Store.lt_next hg)]
    exact h.cell hg hkind
  case txn_group => exact h.txn_group
  case above =>
    intro g grp hg
    rw [he.above (Store.lt_next hg)]
    exact h.above hg
  case above_root => rw [he.above hroot, h.above_root]

/-- A cell is founded together with the region that computes it. -/
theorem insertCell {g : GroupId} (hg : m.group p = g) (habove : m.above groups.next = some g)
    (hgroup : m.group regions.next = groups.next) (htxn : m.txn regions.next = m.txn p)
    (hway : m.way regions.next = (0, .resolve)) :
    Aligned m tokens
      (groups.insert { parent := some g, kind := .cell [] regions.next })
      (regions.insert { parent := some p, kind := .pruning groups.next }) transactions := by
  constructor
  case token => exact h.token
  case root => have := @h.root; grind
  case pruning => have := @h.pruning; grind
  case otherwise => have := @h.otherwise; grind [Kept]
  case atomic => have := @h.atomic; grind
  case body => have := @h.body; grind
  case sole => have := @h.sole; grind
  case transaction => have := @h.transaction; grind [Kept]
  case scope => exact h.scope
  case cell => have := @h.cell; grind
  case txn_group => have := @h.txn_group; grind
  case above => have := @h.above; grind
  case above_root => exact h.above_root

/-- A region is founded for the left side of an `otherwise`. -/
theorem insertOtherwise {k : Continuation} (hk : Kept m regions k)
    (hgroup : m.group regions.next = k.group) (htxn : m.txn regions.next = k.txn)
    (hway : m.way regions.next = ((m.way k.region).1 + 1, (m.way k.region).2)) :
    Aligned m tokens groups
      (regions.insert { parent := some k.region, kind := .otherwise false k }) transactions := by
  constructor
  case token => exact h.token
  case root => have := @h.root; grind
  case pruning => have := @h.pruning; grind
  case otherwise => have := @h.otherwise; grind [Kept]
  case atomic => have := @h.atomic; grind
  case body => have := @h.body; grind
  case sole => have := @h.sole; grind
  case transaction => have := @h.transaction; grind [Kept]
  case scope => exact h.scope
  case cell => have := @h.cell; grind
  case txn_group => exact h.txn_group
  case above => exact h.above
  case above_root => exact h.above_root

/-- A region is founded for the votes of a transaction that has none. -/
theorem insertVotes {x : TxnId} (hx : transactions.get? x = some txn)
    (hp : txn.continuation.region = p)
    (hnone : ∀ {r reg}, regions.get? r = some reg → ¬reg.kind.Serves x)
    (hgroup : m.group regions.next = txn.group) (htxn : m.txn regions.next = some x)
    (hway : m.way regions.next = (0, .publish)) :
    Aligned m tokens groups
      (regions.insert { parent := some p, kind := .votes x }) transactions := by
  constructor
  case token => exact h.token
  case root => have := @h.root; grind
  case pruning => have := @h.pruning; grind
  case otherwise => have := @h.otherwise; grind [Kept]
  case atomic => have := @h.atomic; grind
  case body => have := @h.body; grind
  case sole => have := @h.sole; grind
  case transaction => have := @h.transaction; grind [Kept]
  case scope => exact h.scope
  case cell => have := @h.cell; grind
  case txn_group => exact h.txn_group
  case above => exact h.above
  case above_root => exact h.above_root

/-- A transaction is founded together with its group and the region of its body. -/
theorem insertTransaction (txn : Transaction) (hk : Kept m regions txn.continuation)
    (hgroup : txn.group = groups.next) (hparent : txn.parent = txn.continuation.txn)
    (hlineage : txn.scope.lineage = m.lineage transactions.next)
    (hchain : m.lineage transactions.next = transactions.next :: m.lineage? txn.parent)
    (hlt : ∀ p, txn.parent = some p → p.index < transactions.next.index)
    (habove : m.above groups.next = some txn.continuation.group)
    (hgr : m.group regions.next = groups.next) (htxn : m.txn regions.next = some transactions.next)
    (hway : m.way regions.next = (0, .buffer)) :
    Aligned m tokens
      (groups.insert
        { parent := some txn.continuation.group, kind := .transaction transactions.next })
      (regions.insert
        { parent := some txn.continuation.region, kind := .transaction transactions.next })
      (transactions.insert txn) := by
  have fresh : ∀ {r reg}, regions.get? r = some reg →
      ¬(reg.kind = .transaction transactions.next ∨ reg.kind = .votes transactions.next) := by
    intro r reg hr hkind
    obtain ⟨txn, hx, -⟩ := h.atomic hr hkind
    rw [Store.get?_next] at hx
    exact Option.some_ne_none _ hx.symm
  constructor
  case token => exact h.token
  case root => have := @h.root; grind
  case pruning => have := @h.pruning; grind
  case otherwise => have := @h.otherwise; grind [Kept]
  case atomic => have := @h.atomic; grind
  case body => have := @h.body; grind
  case sole => have := @h.sole; grind
  case transaction => have := @h.transaction; grind [Kept]
  case scope => have := @h.scope; grind
  case cell => have := @h.cell; grind
  case txn_group => have := @h.txn_group; grind
  case above => have := @h.above; grind
  case above_root => exact h.above_root

end

end Aligned
end Orchestra
