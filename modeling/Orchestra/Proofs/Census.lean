/-
  The census: regions count what is in them.

  A region is quiescent when its count of tokens and child regions reaches zero, so all reactions
  of an engine hang on that count.  `Census` says that it is exact: the tokens of a region are
  those that name it, its children are the regions that name it as parent, and the count is the
  number of both.  Two things may be open in the middle of a reaction, and are parameters:

  * `pending`  the regions that are gone but not yet taken off the count of their parent;
  * `hollow`   the one region that may be empty, because it is new or is about to react.

  The moves of the engine on tokens and regions follow, each with what it does to the census:
  `join` and `grow` add a token and a region, `leave` and `shut` take one out, `move` carries a
  token over, `detach` takes a region off the count.
-/
import Mathlib.Data.List.Nodup
import Orchestra.Proofs.Records

namespace Orchestra

open List

variable {preg reg : Region} {c p r : RegionId} {tok : Token} {t : TokenId}

/-- The count of every region is exact, but for what is pending. -/
structure Census (tokens : Store .token Token) (regions : Store .region Region)
    (pending : List (RegionId × RegionId)) (hollow : Option RegionId) : Prop where
  /-- A token is listed in its region. -/
  region_of : ∀ {t tok}, tokens.get? t = some tok →
    ∃ reg, regions.get? tok.region = some reg ∧ t ∈ reg.tokens
  /-- What a region lists as its tokens are tokens that name it. -/
  token_of : ∀ {r reg t}, regions.get? r = some reg → t ∈ reg.tokens →
    ∃ tok, tokens.get? t = some tok ∧ tok.region = r
  tokens_nodup : ∀ {r reg}, regions.get? r = some reg → reg.tokens.Nodup
  children_nodup : ∀ {r reg}, regions.get? r = some reg → reg.children.Nodup
  live_eq : ∀ {r reg}, regions.get? r = some reg →
    reg.live = reg.tokens.length + reg.children.length
  /-- A region is listed by its parent, which outlives it. -/
  parent_of : ∀ {c reg p}, regions.get? c = some reg → reg.parent = some p →
    ∃ preg, regions.get? p = some preg ∧ c ∈ preg.children
  /-- What a region lists as its children are regions that name it, or are gone. -/
  child_of : ∀ {p preg c}, regions.get? p = some preg → c ∈ preg.children →
    (∃ reg, regions.get? c = some reg ∧ reg.parent = some p) ∨ (p, c) ∈ pending
  gone : ∀ {p c}, (p, c) ∈ pending →
    regions.get? c = none ∧ ∃ preg, regions.get? p = some preg ∧ c ∈ preg.children
  /-- No region is to be taken off twice. -/
  once : (pending.map Prod.snd).Nodup
  /-- Regions are older than those below them. -/
  older : ∀ {c reg p}, regions.get? c = some reg → reg.parent = some p → p.index < c.index
  known : ∀ {r reg c}, regions.get? r = some reg → c ∈ reg.children →
    c.index < regions.next.index
  /-- Something is left in every region. -/
  lively : ∀ {r reg}, regions.get? r = some reg → 0 < reg.live ∨ hollow = some r

namespace Census

variable {tokens : Store .token Token} {regions : Store .region Region}
  {pending : List (RegionId × RegionId)} {hollow hollow' : Option RegionId}

/-- What comes down to a region from the one above holds of all regions, as they get older on the
    way up. -/
@[elab_as_elim]
theorem climb {P : RegionId → Prop} (h : Census tokens regions pending hollow)
    (hr : regions.get? r = some reg) (hdown : ∀ r reg, regions.get? r = some reg →
      (∀ {p}, reg.parent = some p → P p) → P r) : P r := by
  induction hn : r.index using Nat.strongRecOn generalizing r reg with
  | _ n ih => grind [parent_of, older]

/-! ## Changes that leave the census alone -/

/-- A token changes but stays where it is. -/
theorem onToken (h : Census tokens regions pending hollow) (t : TokenId) {f : Token → Token}
    (hf : ∀ tok, (f tok).region = tok.region) :
    Census (tokens.modify t f) regions pending hollow := by
  refine { h with region_of := ?_, token_of := ?_ }
  · intro t' tok' ht'
    rcases Store.modified ht' with ⟨-, tok, ht, rfl⟩ | ⟨-, ht'⟩
    · rw [hf]
      exact h.region_of ht
    · exact h.region_of ht'
  · grind [token_of]

/-- A region changes in what is not counted. -/
theorem onRegion (h : Census tokens regions pending hollow) (r : RegionId) {f : Region → Region}
    (hp : ∀ reg, (f reg).parent = reg.parent) (hc : ∀ reg, (f reg).children = reg.children)
    (ht : ∀ reg, (f reg).tokens = reg.tokens) (hl : ∀ reg, (f reg).live = reg.live) :
    Census tokens (regions.modify r f) pending hollow := by
  -- the regions before and after match one to one, and agree in all that is counted
  have back : ∀ {r' reg'}, (regions.modify r f).get? r' = some reg' →
      ∃ reg, regions.get? r' = some reg ∧ reg'.parent = reg.parent ∧
        reg'.children = reg.children ∧ reg'.tokens = reg.tokens ∧ reg'.live = reg.live := by
    intro r' reg' hr'
    rcases Store.modified hr' with ⟨-, reg, hr, rfl⟩ | ⟨-, hr'⟩
    · exact ⟨reg, hr, hp reg, hc reg, ht reg, hl reg⟩
    · exact ⟨reg', hr', rfl, rfl, rfl, rfl⟩
  have forth : ∀ {r' reg}, regions.get? r' = some reg →
      ∃ reg', (regions.modify r f).get? r' = some reg' ∧ reg'.children = reg.children ∧
        reg'.tokens = reg.tokens ∧ reg'.parent = reg.parent := by grind
  have hnone : ∀ {r'}, regions.get? r' = none → (regions.modify r f).get? r' = none := by
    intro r' hr'
    rw [Store.get?_modify, hr']
    split <;> rfl
  constructor
  case region_of => grind [region_of]
  case token_of => grind [token_of]
  case tokens_nodup => grind [tokens_nodup]
  case children_nodup => grind [children_nodup]
  case live_eq => grind [live_eq]
  case parent_of => grind [parent_of]
  case child_of => grind [child_of]
  case gone => grind [gone]
  case once => exact h.once
  case older =>
    intro c reg' p hr' hpar
    obtain ⟨reg, hr, ep, -⟩ := back hr'
    exact h.older hr (ep ▸ hpar)
  case known =>
    intro r' reg' c hr' hmem
    obtain ⟨reg, hr, -, ec, -⟩ := back hr'
    rw [Store.next_modify]
    exact h.known hr (ec ▸ hmem)
  grind [lively]

/-! ## Moves -/

/-- A token is added to a region, which is then not empty. -/
theorem join (h : Census tokens regions pending hollow) (hr : regions.get? tok.region = some reg)
    (hh : ∀ r, hollow = some r → r = tok.region ∨ hollow' = some r) :
    Census (tokens.insert tok) (regions.modify tok.region (Region.seat tokens.next))
      pending hollow' := by
  -- the key of the new token is in no list yet
  have fresh : ∀ {r reg}, regions.get? r = some reg → tokens.next ∉ reg.tokens := by
    intro r reg hr hmem
    obtain ⟨tok, ht, -⟩ := h.token_of hr hmem
    rw [Store.get?_next] at ht
    exact Option.some_ne_none _ ht.symm
  constructor
  case region_of => grind [h.region_of]
  case token_of => grind [h.token_of]
  case tokens_nodup => grind [h.tokens_nodup]
  case children_nodup => grind [h.children_nodup]
  case live_eq => grind [h.live_eq, joined_of_not_mem, fresh hr]
  case parent_of => grind [h.parent_of]
  case child_of => grind [h.child_of]
  case gone => grind [h.gone]
  case once => exact h.once
  case older => have := @h.older; grind
  case known => have := @h.known; grind
  case lively => have := @h.lively; grind

/-- An empty region is added below another. -/
theorem grow (h : Census tokens regions pending none) (hp : regions.get? p = some preg)
    (kind : RegionKind) :
    Census tokens
      ((regions.insert { parent := some p, kind }).modify p (Region.adopt regions.next))
      pending (some regions.next) := by
  have hne : p ≠ regions.next := by
    rintro rfl
    rw [Store.get?_next] at hp
    exact Option.some_ne_none _ hp.symm
  have fresh : ∀ {r reg}, regions.get? r = some reg → regions.next ∉ reg.children :=
    fun hr hmem => Nat.lt_irrefl _ (h.known hr hmem)
  have hlt : p.index < regions.next.index := Store.lt_next hp
  constructor
  case region_of => grind [h.region_of]
  case token_of => grind [h.token_of]
  case tokens_nodup => grind [h.tokens_nodup]
  case children_nodup => grind [h.children_nodup]
  case live_eq => grind [live_eq, joined_of_not_mem, length_singleton]
  case parent_of => grind [h.parent_of]
  case child_of => grind [h.child_of]
  case gone =>
    intro p' c hpc
    obtain ⟨hc, preg', hp', hmem⟩ := h.gone hpc
    have := h.known hp' hmem
    grind
  case once => exact h.once
  case older => have := @h.older; grind
  case known => have := @h.known; grind
  case lively => have := @h.lively; grind

/-- A token goes; its region may be empty then. -/
theorem leave (h : Census tokens regions pending none) (ht : tokens.get? t = some tok)
    (hr : regions.get? tok.region = some reg) :
    Census (tokens.remove t) (regions.modify tok.region (Region.unseat t))
      pending (if reg.live = 1 then some tok.region else none) := by
  have hmem : t ∈ reg.tokens := by grind [h.region_of ht]
  constructor
  case region_of => grind [h.region_of]
  case token_of => grind [h.token_of, h.tokens_nodup hr, List.Nodup.mem_erase_iff]
  case tokens_nodup => grind [h.tokens_nodup, List.Nodup.erase]
  case children_nodup => grind [h.children_nodup]
  case live_eq => grind [h.live_eq, length_erase_of_mem]
  case parent_of => grind [h.parent_of]
  case child_of => grind [h.child_of]
  case gone => grind [h.gone]
  case once => exact h.once
  case older => have := @h.older; grind
  case known => have := @h.known; grind
  case lively => have := @h.lively; grind

/-- A token is carried over to another region, which is then not empty. -/
theorem move (h : Census tokens regions pending hollow) {treg : Region} {target : RegionId}
    (ht : tokens.get? t = some tok) (hr : regions.get? tok.region = some reg)
    (htarget : regions.get? target = some treg) (hne : target ≠ tok.region)
    (hh : ∀ r, hollow = some r → r = target) :
    Census (tokens.modify t fun tok => { tok with region := target })
      ((regions.modify target (Region.seat t)).modify tok.region (Region.unseat t))
      pending (if reg.live = 1 then some tok.region else none) := by
  have hmem : t ∈ reg.tokens := by grind [h.region_of ht]
  have hnot : t ∉ treg.tokens := by grind [token_of]
  constructor
  case region_of => grind [h.region_of]
  case token_of => grind [h.token_of, h.tokens_nodup hr, List.Nodup.mem_erase_iff]
  case tokens_nodup => grind [h.tokens_nodup, List.Nodup.erase]
  case children_nodup => grind [h.children_nodup]
  case live_eq => grind [h.live_eq, length_erase_of_mem, joined_of_not_mem]
  case parent_of => grind [h.parent_of]
  case child_of => grind [h.child_of]
  case gone => grind [h.gone]
  case once => exact h.once
  case older => have := @h.older; grind
  case known => have := @h.known; grind
  case lively => have := @h.lively; grind

/-- An empty region goes, and is to be taken off the count of its parent. -/
theorem shut (h : Census tokens regions pending hollow) (hr : regions.get? r = some reg)
    (hlive : reg.live = 0) (hh : ∀ r', hollow = some r' → r' = r) :
    Census tokens (regions.remove r)
      ((reg.parent.map fun p => (p, r)).toList ++ pending) none := by
  have hsum := h.live_eq hr
  have htok : reg.tokens = [] := length_eq_zero_iff.1 (by omega)
  have hchild : reg.children = [] := length_eq_zero_iff.1 (by omega)
  -- a region that is gone is not also there
  have hnot : r ∉ pending.map Prod.snd := by
    intro hm
    obtain ⟨⟨p, c⟩, hpc, rfl⟩ := mem_map.1 hm
    rw [(h.gone hpc).1] at hr
    exact Option.some_ne_none _ hr.symm
  constructor
  case region_of => grind [h.region_of]
  case token_of => grind [h.token_of]
  case tokens_nodup => grind [h.tokens_nodup]
  case children_nodup => grind [h.children_nodup]
  case live_eq => grind [h.live_eq]
  case parent_of => grind [parent_of]
  case child_of => grind [h.child_of]
  case gone => grind [Option.map_eq_some_iff, parent_of, gone]
  case once =>
    rw [map_append, nodup_append]
    refine ⟨?_, h.once, ?_⟩
    · cases reg.parent <;> simp
    · cases reg.parent <;> grind
  case older => have := @h.older; grind
  case known => have := @h.known; grind
  case lively => have := @h.lively; grind

/-- A region that is gone is taken off the count of its parent, which may be empty then. -/
theorem detach (h : Census tokens regions ((p, c) :: pending) none)
    (hp : regions.get? p = some preg) :
    Census tokens
      (regions.modify p (Region.disown c))
      pending (if preg.live = 1 then some p else none) := by
  have hmem : c ∈ preg.children := by grind [h.gone mem_cons_self]
  have hnone : regions.get? c = none := (h.gone mem_cons_self).1
  have honce : c ∉ pending.map Prod.snd ∧ (pending.map Prod.snd).Nodup := by
    simpa only [map_cons, nodup_cons] using h.once
  constructor
  case region_of => grind [h.region_of]
  case token_of => grind [h.token_of]
  case tokens_nodup => grind [h.tokens_nodup]
  case children_nodup => grind [h.children_nodup, List.Nodup.erase]
  case live_eq => grind [h.live_eq, length_erase_of_mem]
  case parent_of => grind [h.parent_of]
  case child_of => grind [h.child_of, h.children_nodup hp, List.Nodup.mem_erase_iff]
  case gone => grind [h.gone]
  case once => exact honce.2
  case older => have := @h.older; grind
  case known => have := @h.known; grind [mem_of_mem_erase]
  case lively => have := @h.lively; grind

/-- A region with a token in it is not empty. -/
theorem live_pos_of_token (h : Census tokens regions pending hollow)
    (hr : regions.get? r = some reg) (hmem : t ∈ reg.tokens) : 0 < reg.live := by
  rw [h.live_eq hr]
  have := length_pos_of_mem hmem
  omega

/-- A region with a child is not empty. -/
theorem live_pos_of_child (h : Census tokens regions pending hollow)
    (hr : regions.get? r = some reg) (hmem : c ∈ reg.children) : 0 < reg.live := by
  rw [h.live_eq hr]
  have := length_pos_of_mem hmem
  omega

end Census
end Orchestra
