import MicroNT.WindowHits

/-! # The tiles of the Start menu

`StartDesktop` draws the pinned applications in two rows of four. `ResolveHitTarget` takes the
index from the height of the pointer alone, one for every 96 lines, and every index launches an
application. -/

namespace MicroNT.Shell

/-! ## What is drawn -/

abbrev CHAR_W : u32 := 8#32
abbrev CHAR_H : u32 := 16#32

/-- The names that `StartDesktop` draws. -/
def pinned : List String :=
  ["Edge", "Files", "Settings", "Store", "Photos", "Mail", "Notepad", "Terminal"]

/-- The corner of the flyout, on a framebuffer of width `fbW` with the taskbar at `taskY`. -/
def menuX (fbW : u32) : u32 := if fbW > 640#32 then (fbW - 640#32) / 2#32 else 0#32
def menuY (taskY : u32) : u32 := if taskY > 720#32 + 12#32 then taskY - 720#32 - 12#32 else 0#32

def menuRect (fbW taskY : u32) : Rect := ⟨menuX fbW, menuY taskY, 640#32, 720#32⟩

def tileX (fbW : u32) (i : Nat) : u32 := menuX fbW + 40#32 + BitVec.ofNat 32 (i % 4) * 140#32
def tileY (taskY : u32) (i : Nat) : u32 := menuY taskY + 132#32 + BitVec.ofNat 32 (i / 4) * 110#32

/-- What `DrawAppTile` fills for tile `i`. -/
def badgeRect (fbW taskY : u32) (i : Nat) : Rect :=
  ⟨tileX fbW i + 38#32, tileY taskY i, 48#32, 48#32⟩

/-- The cells of the characters of its name. -/
def labelRect (fbW taskY : u32) (i : Nat) : Rect :=
  ⟨tileX fbW i + 30#32, tileY taskY i + 56#32,
    BitVec.ofNat 32 ((pinned.getD i "").length) * CHAR_W, CHAR_H⟩

/-- Tile `i` is drawn at the point. -/
def TileAt (fbW taskY px py : u32) (i : Nat) : Prop :=
  i < pinned.length ∧
    ((badgeRect fbW taskY i).Contains px py ∨ (labelRect fbW taskY i).Contains px py)

instance (fbW taskY px py : u32) (i : Nat) : Decidable (TileAt fbW taskY px py i) :=
  inferInstanceAs (Decidable (_ ∧ (_ ∨ _)))

/-- The index that `ResolveHitTarget` computes in the menu. -/
def menuIndex (taskY py : u32) : u32 :=
  if py > menuY taskY + 120#32 then (py - menuY taskY - 120#32) / 96#32 else 0#32

/-! ## What a click launches -/

/-- The title that `HandleShellClick` opens a window with. -/
def launched (L : DesktopLayout) : HitTargetKind × u32 → Option String
  | (.StartMenu, index) => some (startApps.getD index.toNat "Edge")
  | (.DesktopIcon, index) => L.icons[index.toNat]?.map DesktopIcon.label
  | _ => none

/-- A tile is hit where it is drawn and launches what it shows; the rest of the menu launches
nothing. -/
structure TilesRight (L : DesktopLayout) (px py : u32) : Prop where
  tile : ∀ i, TileAt L.screenW (L.taskY L.screenW L.screenH) px py i →
    hitTarget px py L = (.StartMenu, BitVec.ofNat 32 i) ∧
      launched L (hitTarget px py L) = pinned[i]?
  rest : (menuRect L.screenW (L.taskY L.screenW L.screenH)).Contains px py →
    (∀ i, ¬ TileAt L.screenW (L.taskY L.screenW L.screenH) px py i) →
      launched L (hitTarget px py L) = none

section

variable {L : DesktopLayout} {fbW fbH taskY px py : u32} {i : Nat}

/-- **What a click opens** is a window with the title that is launched. -/
theorem handleShellClick_windows (L : DesktopLayout) (hit : HitTargetKind × u32) {title : String}
    (h : launched L hit = some title) :
    (handleShellClick L hit.1 hit.2).windows = (openWindow L title).windows := by
  obtain ⟨target, index⟩ := hit
  cases target with
  | StartMenu =>
    obtain rfl := Option.some.inj h
    rfl
  | DesktopIcon =>
    obtain ⟨icon, at_, rfl⟩ := Option.map_eq_some_iff.mp h
    simp only [handleShellClick, at_]
  | _ => cases h

/-! ## Numbers -/

theorem menuX_toNat (wide : 640 ≤ fbW.toNat) : (menuX fbW).toNat = (fbW.toNat - 640) / 2 := by
  rw [menuX]
  split
  case isTrue more =>
    rw [BitVec.toNat_udiv, BitVec.toNat_sub_of_le (BitVec.le_of_lt more)]
    rfl
  case isFalse less =>
    rw [gt_iff_lt, BitVec.lt_def] at less
    simp only [BitVec.toNat_ofNat] at less ⊢
    omega

theorem menuY_toNat (taskY : u32) : (menuY taskY).toNat = taskY.toNat - 732 := by
  rw [menuY]
  split
  case isTrue more =>
    rw [gt_iff_lt, BitVec.lt_def] at more
    simp only [BitVec.toNat_sub, BitVec.toNat_ofNat, BitVec.toNat_add] at more ⊢
    omega
  case isFalse less =>
    rw [gt_iff_lt, BitVec.lt_def] at less
    simp only [BitVec.toNat_ofNat, BitVec.toNat_add] at less ⊢
    omega

theorem tileX_toNat (wide : 640 ≤ fbW.toNat) (i : Nat) :
    (tileX fbW i).toNat = (fbW.toNat - 640) / 2 + 40 + i % 4 * 140 := by
  have bound := fbW.isLt
  rw [tileX, BitVec.toNat_add, BitVec.toNat_add, menuX_toNat wide, BitVec.toNat_mul,
    BitVec.toNat_ofNat]
  simp only [BitVec.toNat_ofNat]
  omega

theorem tileY_toNat (taskY : u32) (hi : i < 8) : (tileY taskY i).toNat = taskY.toNat - 732 + 132 + i / 4 * 110 := by
  have bound := taskY.isLt
  rw [tileY, BitVec.toNat_add, BitVec.toNat_add, menuY_toNat, BitVec.toNat_mul, BitVec.toNat_ofNat]
  simp only [BitVec.toNat_ofNat]
  omega

theorem taskY_toNat (L : DesktopLayout) (fbW : u32) (high : 780 ≤ fbH.toNat) :
    (L.taskY fbW fbH).toNat = fbH.toNat - 48 := by
  have some_ : ¬ fbH = 0#32 := by
    rintro rfl
    simp at high
  have tall : fbH ≥ 720#32 := by
    rw [ge_iff_le, BitVec.le_def]
    simp only [BitVec.toNat_ofNat]
    omega
  simp only [DesktopLayout.taskY, computeTaskbar, if_neg some_, if_pos tall]
  rw [BitVec.toNat_sub_of_le]
  · rfl
  · rw [BitVec.le_def]
    simp only [BitVec.toNat_ofNat]
    omega

/-- A tile in numbers: the badge is 48 lines high, and the name 16 lines below it. -/
theorem TileAt.span (wide : 640 ≤ fbW.toNat) (h : TileAt fbW taskY px py i) :
    i < 8 ∧ (fbW.toNat - 640) / 2 + 70 + i % 4 * 140 ≤ px.toNat ∧
      px.toNat < (fbW.toNat - 640) / 2 + 134 + i % 4 * 140 ∧
      taskY.toNat - 732 + 132 + i / 4 * 110 ≤ py.toNat ∧
      py.toNat < taskY.toNat - 732 + 204 + i / 4 * 110 := by
  obtain ⟨hi, drawn⟩ := h
  have hi : i < 8 := hi
  have x := tileX_toNat wide i
  have y := tileY_toNat taskY hi
  have boundx := fbW.isLt
  have boundy := taskY.isLt
  have short : ((pinned.getD i "").length) ≤ 8 := by
    have all : ∀ j : Fin 8, ((pinned.getD j.val "").length) ≤ 8 := by decide
    exact all ⟨i, hi⟩
  simp only [badgeRect, labelRect, Rect.Contains, BitVec.toNat_add, BitVec.toNat_mul, x, y,
    BitVec.toNat_ofNat] at drawn
  refine ⟨hi, ?_⟩
  rcases drawn with badge | label <;> omega

theorem menu_iff (wide : 640 ≤ fbW.toNat) : (menuRect fbW taskY).Contains px py ↔
    (fbW.toNat - 640) / 2 ≤ px.toNat ∧ px.toNat < (fbW.toNat - 640) / 2 + 640 ∧
      taskY.toNat - 732 ≤ py.toNat ∧ py.toNat < taskY.toNat - 732 + 720 := by
  simp only [menuRect, Rect.Contains, menuX_toNat wide, menuY_toNat, BitVec.toNat_ofNat]

/-! ## What is hit -/

theorem menuIndex_toNat (below : taskY.toNat - 732 ≤ py.toNat) :
    (menuIndex taskY py).toNat = (py.toNat - (taskY.toNat - 732) - 120) / 96 := by
  have y := menuY_toNat taskY
  have boundy := taskY.isLt
  have sum : (menuY taskY + 120#32).toNat = taskY.toNat - 732 + 120 := by
    rw [BitVec.toNat_add, y]
    simp only [BitVec.toNat_ofNat]
    omega
  rw [menuIndex]
  split
  case isTrue more =>
    rw [gt_iff_lt, BitVec.lt_def, sum] at more
    have first : (py - menuY taskY).toNat = py.toNat - (taskY.toNat - 732) := by
      rw [BitVec.toNat_sub_of_le (BitVec.le_def.mpr (y ▸ below)), y]
    have second : (py - menuY taskY - 120#32).toNat = py.toNat - (taskY.toNat - 732) - 120 := by
      rw [BitVec.toNat_sub_of_le (BitVec.le_def.mpr (by rw [first]; simp only [BitVec.toNat_ofNat]; omega)),
        first]
      rfl
    rw [BitVec.toNat_udiv, second]
    rfl
  case isFalse less =>
    rw [gt_iff_lt, BitVec.lt_def, sum] at less
    simp only [BitVec.toNat_ofNat]
    omega

/-- **In the open menu** the index is that of a band of 96 lines. -/
theorem hitTarget_menu (opened : L.startMenuOpen = true) (wide : 640 ≤ L.screenW.toNat)
    (high : 780 ≤ L.screenH.toNat)
    (inside : (menuRect L.screenW (L.taskY L.screenW L.screenH)).Contains px py) :
    hitTarget px py L = (.StartMenu, menuIndex (L.taskY L.screenW L.screenH) py) := by
  have task := taskY_toNat L L.screenW high
  have boundx := L.screenW.isLt
  have boundy := L.screenH.isLt
  have y := menuY_toNat (L.taskY L.screenW L.screenH)
  have at_ := (menu_iff wide).mp inside
  have hit : inRect px py (menuX L.screenW) (menuY (L.taskY L.screenW L.screenH)) 640#32 720#32 =
      true := by
    refine (inRect_iff ?_ ?_).mpr inside
    · rw [menuX_toNat wide, show (640#32).toNat = 640 from rfl]
      omega
    · rw [y, show (720#32).toNat = 720 from rfl]
      omega
  have above : ¬ py ≥ L.taskY L.screenW L.screenH := by
    rw [ge_iff_le, BitVec.le_def]
    omega
  have menu : hitStartMenu px py L (computeTaskbar L.screenW L.screenH L.windowCount) =
      some (.StartMenu, menuIndex (L.taskY L.screenW L.screenH) py) := by
    have both : (L.startMenuOpen && inRect px py (menuX L.screenW)
        (menuY (L.taskY L.screenW L.screenH)) 640#32 720#32) = true := by
      rw [opened, hit]
      rfl
    exact if_pos both
  rw [hitTarget]
  simp only [menu]
  exact if_neg above

end

/-- **The Start menu launches what it shows exactly on the first tile**, on every screen that the
menu fits and with any windows: at a point of the menu, unless it is on the first tile, the
click launches another application than the one that is drawn there, if any. -/
theorem start_menu_tiles_iff (L : DesktopLayout) (px py : u32) (opened : L.startMenuOpen = true)
    (wide : 640 ≤ L.screenW.toNat) (high : 780 ≤ L.screenH.toNat) :
    TilesRight L px py ↔
      ¬ (menuRect L.screenW (L.taskY L.screenW L.screenH)).Contains px py ∨
        TileAt L.screenW (L.taskY L.screenW L.screenH) px py 0 := by
  have task := taskY_toNat L L.screenW high
  have inMenu : ∀ i, TileAt L.screenW (L.taskY L.screenW L.screenH) px py i →
      (menuRect L.screenW (L.taskY L.screenW L.screenH)).Contains px py := fun i tile => by
    obtain ⟨hi, span⟩ := tile.span wide
    exact (menu_iff wide).mpr (by omega)
  by_cases inside : (menuRect L.screenW (L.taskY L.screenW L.screenH)).Contains px py
  case neg =>
    exact iff_of_true ⟨fun i tile => absurd (inMenu i tile) inside, fun there => absurd there inside⟩
      (.inl inside)
  case pos =>
    have hit := hitTarget_menu opened wide high inside
    have value := menuIndex_toNat ((menu_iff wide).mp inside).2.2.1
    generalize menuIndex (L.taskY L.screenW L.screenH) py = index at hit value
    rw [task] at value
    constructor
    · intro right
      refine .inr ?_
      by_contra other
      have none : ∀ i, ¬ TileAt L.screenW (L.taskY L.screenW L.screenH) px py i := by
        intro i tile
        obtain ⟨hi, span⟩ := tile.span wide
        have same := (right.tile i tile).1
        rw [hit] at same
        have equal := congrArg BitVec.toNat (Prod.mk.inj same).2
        rw [value, BitVec.toNat_ofNat, Nat.mod_eq_of_lt (by omega)] at equal
        rw [task] at span
        -- the index is 0 in the first row, and 1 or 2 in the second
        have row : i / 4 = 0 ∨ i / 4 = 1 := by omega
        have first : i = 0 := by rcases row with row | row <;> rw [row] at span <;> omega
        exact other (first ▸ tile)
      have nothing := right.rest inside none
      rw [hit] at nothing
      cases nothing
    · intro either
      have first := either.resolve_left (not_not.mpr inside)
      obtain ⟨-, span⟩ := first.span wide
      have zero : index = 0#32 := BitVec.eq_of_toNat_eq (by
        rw [value]
        rw [task] at span
        simp only [BitVec.toNat_ofNat]
        omega)
      refine ⟨fun i tile => ?_, fun _ none => absurd first (none 0)⟩
      obtain ⟨hi, at_i⟩ := tile.span wide
      obtain rfl : i = 0 := by omega
      rw [hit, zero]
      exact ⟨rfl, rfl⟩

/-- The first desktop with its Start menu open, at the letter of the first tile. -/
theorem start_menu_tiles_iff_first :
    TilesRight (setStartMenu (buildLayout 1#32 1920#32 1080#32) true) 742#32 456#32 ↔
      ¬ (menuRect 1920#32 1032#32).Contains 742#32 456#32 ∨ TileAt 1920#32 1032#32 742#32 456#32 0 :=
  start_menu_tiles_iff (setStartMenu (buildLayout 1#32 1920#32 1080#32) true) 742#32 456#32 rfl
    (by decide) (by decide)

/-- **The tile of the files** launches the browser. -/
theorem files_tile_launches_edge :
    TileAt 1920#32 1032#32 882#32 456#32 1 ∧
      ¬ TilesRight (setStartMenu (buildLayout 1#32 1920#32 1080#32) true) 882#32 456#32 := by
  refine ⟨by decide, fun right => ?_⟩
  have launched := (right.tile 1 (by decide)).2
  exact absurd launched (by decide)

end MicroNT.Shell
