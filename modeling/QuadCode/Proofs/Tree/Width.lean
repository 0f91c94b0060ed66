import QuadCode.Proofs.Double.Halving
import QuadCode.Proofs.Geometry.Sides
import QuadCode.Proofs.Tree.PrefixCode

/-!
# How deep cells keep a positive width

The cells of a tree are halved once per level, so on each axis a node's bounds come from those of
the region by as many halvings as its level tells.  A region of at least `2 ^ lod` units can be
halved `lod` times before two bounds coincide, if that is not more than 52 times; and a region whose
side is a power of two is halved without rounding, also at the level below.

Main statements:

* `Growth.spans`: what passes from a span to its halves holds of the spans of every node;
* `Sound.solid`: a node has a positive width and height if its settings resolve its level.
-/

namespace QuadCode

open Double Rect

variable {α : Type}

/-- Settings whose region has cells of a positive width at a level: the side of the region has a
unit for each cell of that level, and the level is not below the 52nd unless the side is a power of
two. -/
def Settings.Resolves (s : Settings) (lod : ℕ) : Prop :=
  (2 : ℤ) ^ lod ≤ units s.rectSize ∧ (lod ≤ 52 ∨ ∃ k : ℕ, units s.rectSize = 2 ^ k)

theorem Settings.Resolves.mono {s : Settings} {lod lod' : ℕ} (h : s.Resolves lod')
    (hle : lod ≤ lod') : s.Resolves lod :=
  ⟨(pow_le_pow_right₀ (by decide) hle).trans h.1, h.2.imp_left hle.trans⟩

/-- A property of the bounds on one axis that passes from a span to both halves, down to a level. -/
def Halves (last : ℕ) (P : ℕ → Float → Float → Prop) : Prop :=
  ∀ depth lower upper, depth < last → P depth lower upper →
    P (depth + 1) lower (middle lower upper) ∧ P (depth + 1) (middle lower upper) upper

theorem Halves.quadrant {last depth : ℕ} {P : ℕ → Float → Float → Prop} (h : Halves last P)
    (hdepth : depth < last) {r : Rect} (hx : P depth r.minX r.maxX) (hy : P depth r.minY r.maxY)
    (q : Quadrant) : P (depth + 1) (r.quadrant q).minX (r.quadrant q).maxX ∧
      P (depth + 1) (r.quadrant q).minY (r.quadrant q).maxY := by
  obtain ⟨hleft, hright⟩ := h depth r.minX r.maxX hdepth hx
  obtain ⟨hbottom, htop⟩ := h depth r.minY r.maxY hdepth hy
  cases q with
  | bottomLeft => exact ⟨hleft, hbottom⟩
  | topLeft => exact ⟨hleft, htop⟩
  | bottomRight => exact ⟨hright, hbottom⟩
  | topRight => exact ⟨hright, htop⟩

section

variable {points : Array (Point α)} {splitThreshold limit : Nat} {root : Node} {nodes : Array Node}
  {waiting : List Nat}

/-- What holds of the spans of the root and passes from a span to its halves holds of the spans of
every node. -/
theorem Growth.spans (h : Growth points splitThreshold limit root nodes waiting) {last : ℕ}
    {P : ℕ → Float → Float → Prop} (hhalves : Halves last P) (hroot : root.key = Key.root)
    (hx : P 0 root.rect.minX root.rect.maxX) (hy : P 0 root.rect.minY root.rect.maxY) {id : Nat}
    {n : Node} (hn : nodes[id]? = some n) (hlod : n.key.lod ≤ last) :
    P n.key.lod n.rect.minX n.rect.maxX ∧ P n.key.lod n.rect.minY n.rect.maxY := by
  refine h.node_induction (P := fun n => n.key.lod ≤ last →
    P n.key.lod n.rect.minX n.rect.maxX ∧ P n.key.lod n.rect.minY n.rect.maxY) ?_ ?_ hn hlod
  · intro _
    rw [hroot]
    exact ⟨hx, hy⟩
  · intro n c q hn hc hlod
    have hdepth := Node.lod_of_childIn hc
    rw [hdepth] at hlod
    obtain ⟨hx, hy⟩ := hn (by omega)
    rw [hdepth, (Node.childIn_parts hc).2.1]
    exact hhalves.quadrant hlod hx hy q

/-- No node lies more than one level below the depth limit. -/
theorem Growth.lod_le (h : Growth points splitThreshold limit root nodes waiting)
    (hroot : root.key = Key.root) {id : Nat} {n : Node} (hn : nodes[id]? = some n) :
    n.key.lod ≤ limit + 1 := by
  rcases h.cell_origin hroot hn with ⟨-, hnil⟩ | ⟨p, q, m, -, hm, hlink, -, hlod, -⟩
  · rw [← n.key.length_path, hnil]
    exact Nat.zero_le _
  · obtain ⟨kids, hkids, -⟩ := hlink.children hm
    rw [hlod]
    exact Nat.succ_le_succ (h.divided hm hkids).2

end

/-- A span that has room for the halvings down to a level. -/
def RoomySpan (n last depth : ℕ) (lower upper : Float) : Prop :=
  ∃ a b, Counts lower a ∧ Counts upper b ∧ Roomy n (last - depth) a b

theorem RoomySpan.lt {n last depth : ℕ} {lower upper : Float}
    (h : RoomySpan n last depth lower upper) : lower < upper := by
  obtain ⟨a, b, ha, hb, hroomy⟩ := h
  exact ha.lt hb hroomy.lt

theorem halves_roomySpan (n last : ℕ) : Halves last (RoomySpan n last) := by
  intro depth lower upper hdepth hspan
  obtain ⟨a, b, ha, hb, hroomy⟩ := hspan
  obtain ⟨hm, hlow, hhigh⟩ := ha.middle hb hroomy.lt.le
  have hlevels : last - depth = last - (depth + 1) + 1 := by omega
  rw [hlevels] at hroomy
  obtain ⟨hleft, hright⟩ := hroomy.halves hm.fits hlow hhigh
  exact ⟨⟨a, _, ha, hm, hleft⟩, ⟨_, b, hm, hb, hright⟩⟩

/-- A span between neighbouring lines of the grid that divides a region of `2 ^ k` units into
`2 ^ depth` parts. -/
def GridSpan (k depth : ℕ) (lower upper : Float) : Prop :=
  ∃ c < 2 ^ depth, Counts lower (c * 2 ^ (k - depth)) ∧ Counts upper ((c + 1) * 2 ^ (k - depth))

theorem GridSpan.lt {k depth : ℕ} {lower upper : Float} (h : GridSpan k depth lower upper) :
    lower < upper := by
  obtain ⟨c, -, hlower, hupper⟩ := h
  exact hlower.lt hupper (Nat.mul_lt_mul_of_pos_right c.lt_succ_self (Nat.two_pow_pos _))

theorem halves_gridSpan {k last : ℕ} (hlast : last ≤ k) (hshort : last ≤ 53) :
    Halves last (GridSpan k) := by
  intro depth lower upper hdepth hspan
  obtain ⟨c, hc, hlower, hupper⟩ := hspan
  have hstep : k - depth = k - (depth + 1) + 1 := by omega
  rw [hstep] at hlower hupper
  have hbits : 2 ^ (depth + 1) ≤ 2 ^ 53 := Nat.pow_le_pow_right Nat.two_pos (by omega)
  rw [pow_succ] at hbits
  have hmiddle := hlower.middle_grid hupper (by omega)
  have hdouble (m : ℕ) : m * 2 ^ (k - (depth + 1) + 1) = 2 * m * 2 ^ (k - (depth + 1)) := by ring
  rw [hdouble] at hlower hupper
  have hless : 2 ^ (depth + 1) = 2 * 2 ^ depth := by ring
  exact ⟨⟨2 * c, by omega, hlower, hmiddle⟩, ⟨2 * c + 1, by omega, hmiddle, hupper⟩⟩

namespace Tree

/-- The spans of the nodes of a tree come from the side of its region by halving. -/
theorem Sound.spans {t : Tree α} (h : t.Sound) {last : ℕ} {P : ℕ → Float → Float → Prop}
    (hhalves : Halves last P) (hside : P 0 0.0 t.settings.rectSize) {id : Nat} {n : Node}
    (hn : t.node? id = some n) (hlod : n.key.lod ≤ last) :
    P n.key.lod n.rect.minX n.rect.maxX ∧ P n.key.lod n.rect.minY n.rect.maxY := by
  obtain ⟨waiting, hgrowth⟩ := h.growth
  exact hgrowth.spans hhalves rfl hside hside hn hlod

/-- No node of a tree lies more than one level below the depth limit. -/
theorem Sound.lod_le {t : Tree α} (h : t.Sound) {id : Nat} {n : Node} (hn : t.node? id = some n) :
    n.key.lod ≤ t.settings.lodThreshold.toNat + 1 := by
  obtain ⟨waiting, hgrowth⟩ := h.growth
  exact hgrowth.lod_le rfl hn

/-- **Cells of a level that the settings resolve have a positive width and height.** -/
theorem Sound.solid {t : Tree α} (h : t.Sound) {id : Nat} {n : Node} (hn : t.node? id = some n)
    (hresolves : t.settings.Resolves n.key.lod) : n.rect.Solid := by
  obtain ⟨hfinite, -, hlimit⟩ := Settings.parts_of_valid h.valid
  obtain ⟨hunits, hdepth⟩ := hresolves
  obtain ⟨side, hside⟩ : ∃ side, Counts t.settings.rectSize side :=
    ⟨(units t.settings.rectSize).toNat, hfinite, by
      have := pow_pos (show (0 : ℤ) < 2 by decide) n.key.lod
      omega⟩
  rw [hside.2] at hunits hdepth
  have hroom : 2 ^ n.key.lod ≤ side := by exact_mod_cast hunits
  by_cases hdeep : n.key.lod ≤ 52
  · have hroomy : RoomySpan side n.key.lod 0 0.0 t.settings.rectSize :=
      ⟨0, side, counts_zero, hside, Roomy.start hside.fits hdeep hroom⟩
    obtain ⟨hx, hy⟩ := h.spans (halves_roomySpan side n.key.lod) hroomy hn le_rfl
    exact ⟨hx.lt, hy.lt⟩
  · obtain ⟨k, hk⟩ := hdepth.resolve_left hdeep
    have hk' : side = 2 ^ k := by exact_mod_cast hk
    subst hk'
    have hgrid : GridSpan k 0 0.0 t.settings.rectSize := by
      refine ⟨0, Nat.one_pos, ?_, ?_⟩
      · rw [zero_mul]
        exact counts_zero
      · rw [zero_add, one_mul]
        exact hside
    have hlast : n.key.lod ≤ 53 := (h.lod_le hn).trans (Nat.succ_le_succ hlimit)
    have hgridLast : n.key.lod ≤ k := (Nat.pow_le_pow_iff_right Nat.one_lt_two).mp hroom
    obtain ⟨hx, hy⟩ := h.spans (halves_gridSpan hgridLast hlast) hgrid hn le_rfl
    exact ⟨hx.lt, hy.lt⟩

/-- If the settings resolve the level below the depth limit, all cells have a positive width and
height. -/
theorem Sound.all_solid {t : Tree α} (h : t.Sound)
    (hresolves : t.settings.Resolves (t.settings.lodThreshold.toNat + 1)) :
    ∀ n ∈ t.nodes, n.rect.Solid := by
  intro n hn
  obtain ⟨id, hid⟩ := Array.mem_iff_getElem?.mp hn
  exact h.solid hid (hresolves.mono (h.lod_le hid))

end Tree

end QuadCode
