import MicroNT.Base.Machine
import MicroNT.Ntdef

/-! # The window manager's scene (`windowmgr.cpp`)

A session's scene lists its top-level windows, and `SetForegroundWindow` marks one of them.
The loop has marked every window before it is known whether the name exists. -/

namespace MicroNT.WindowMgr

open Base.Machine

/-! ## Scenes -/

inductive WindowKind
  | Desktop | Shell | Taskbar
  deriving DecidableEq

structure Window where
  id : u32
  kind : WindowKind
  title : String
  visible : Bool
  foreground : Bool
  deriving DecidableEq

def makeWindow (id : u32) (kind : WindowKind) (title : String) : Window :=
  { id, kind, title, visible := true, foreground := false }

abbrev SCENE_WINDOWS : Nat := 4

/-- The first `WindowCount` entries of the array `Windows`. -/
structure DesktopScene where
  sessionId : u32
  windows : List Window
  room : windows.length ≤ SCENE_WINDOWS
  zOrderReady : Bool
  deriving DecidableEq

/-- The scene it makes for the desktop of a session. -/
def createDesktopScene (desktopSession : u32) : Option DesktopScene :=
  if desktopSession = 0 then none
  else some
    { sessionId := desktopSession, windows := [makeWindow 1 .Desktop "Progman"],
      room := by decide, zOrderReady := false }

/-- What it reads of the `ShellSurface`. -/
structure ShellSurface where
  sessionId : u32
  boundToExplorer : Bool

def attachShellSurface (scene : DesktopScene) (surface : ShellSurface) : DesktopScene × Bool :=
  if surface.sessionId ≠ scene.sessionId ∨ surface.boundToExplorer = false then (scene, false)
  else if room : scene.windows.length + 2 > SCENE_WINDOWS then (scene, false)
  else
    ({ scene with
        windows := scene.windows ++
          [makeWindow 2 .Shell "explorer.exe", makeWindow 3 .Taskbar "Shell_TrayWnd"]
        room := by rw [List.length_append]; exact Nat.le_of_not_gt room
        zOrderReady := true }, true)

/-- The loop of `SetForegroundWindow` from a window on, with what `found` is there. -/
def foregroundLoop (windowId : u32) : List Window → Bool → List Window × Bool
  | [], found => ([], found)
  | w :: rest, found =>
    let w' := { w with foreground := w.id == windowId }
    let (rest', found') := foregroundLoop windowId rest (found || w'.foreground)
    (w' :: rest', found')

/-- The loop marks every window, and finds the name if a window has it. -/
theorem foregroundLoop_eq (windowId : u32) (windows : List Window) (found : Bool) :
    foregroundLoop windowId windows found =
      (windows.map fun w => { w with foreground := w.id == windowId },
        found || windows.any fun w => w.id == windowId) := by
  induction windows generalizing found with
  | nil => simp [foregroundLoop]
  | cons w rest ih => simp [foregroundLoop, ih, Bool.or_assoc]

def setForegroundWindow (scene : DesktopScene) (windowId : u32) : DesktopScene × Bool :=
  if scene.zOrderReady = false then (scene, false)
  else
    let loop := foregroundLoop windowId scene.windows false
    ({ scene with
        windows := loop.1
        room := by simp only [loop, foregroundLoop_eq, List.length_map]; exact scene.room }, loop.2)

/-- `WindowManagerStart` of the session manager. -/
def windowManagerStart (desktopSession : u32) (surface : ShellSurface) : Option DesktopScene :=
  match createDesktopScene desktopSession with
  | none => none
  | some scene =>
    match attachShellSurface scene surface with
    | (_, false) => none
    | (scene, true) =>
      match setForegroundWindow scene 2 with
      | (_, false) => none
      | (scene, true) => some scene

/-! ## The foreground -/

namespace DesktopScene

def ids (scene : DesktopScene) : List u32 := scene.windows.map Window.id

def foregrounds (scene : DesktopScene) : List Window := scene.windows.filter Window.foreground

/-- Exactly one window is foreground, the named one. -/
def Foreground (scene : DesktopScene) (windowId : u32) : Prop :=
  scene.foregrounds.map Window.id = [windowId]

def HasForeground (scene : DesktopScene) : Prop := scene.foregrounds ≠ []

def AtMostOne (scene : DesktopScene) : Prop := scene.foregrounds.length ≤ 1

instance (scene : DesktopScene) (windowId : u32) : Decidable (scene.Foreground windowId) :=
  inferInstanceAs (Decidable (_ = _))

instance (scene : DesktopScene) : Decidable scene.HasForeground :=
  inferInstanceAs (Decidable (_ ≠ _))

instance (scene : DesktopScene) : Decidable scene.AtMostOne :=
  inferInstanceAs (Decidable (_ ≤ _))

end DesktopScene

/-- A call names the foreground window, or leaves the scene as it was. -/
def Atomic (scene : DesktopScene) (windowId : u32) : Prop :=
  ((setForegroundWindow scene windowId).2 = true →
    (setForegroundWindow scene windowId).1.Foreground windowId) ∧
  ((setForegroundWindow scene windowId).2 = false →
    (setForegroundWindow scene windowId).1 = scene)

/-- A window is still foreground after the call, if one was before. -/
def Remains (scene : DesktopScene) (windowId : u32) : Prop :=
  scene.HasForeground → (setForegroundWindow scene windowId).1.HasForeground

/-- The name exists, or there is nothing to lose. -/
def Harmless (scene : DesktopScene) (windowId : u32) : Prop :=
  scene.zOrderReady = false ∨ windowId ∈ scene.ids ∨ ¬ scene.HasForeground

instance (scene : DesktopScene) (windowId : u32) : Decidable (Atomic scene windowId) :=
  inferInstanceAs (Decidable (_ ∧ _))

instance (scene : DesktopScene) (windowId : u32) : Decidable (Harmless scene windowId) :=
  inferInstanceAs (Decidable (_ ∨ _))

/-- The calls of a run of `SetForegroundWindow`, each with its window id. -/
def step (scene : DesktopScene) (windowId : u32) : Option DesktopScene :=
  some (setForegroundWindow scene windowId).1

variable {scene scene' : DesktopScene} {windowId : u32}

theorem setForegroundWindow_idle (idle : scene.zOrderReady = false) (windowId : u32) :
    setForegroundWindow scene windowId = (scene, false) := if_pos idle

/-- What a call leaves in a scene that is ready. -/
theorem setForegroundWindow_windows (ready : scene.zOrderReady = true) (windowId : u32) :
    (setForegroundWindow scene windowId).1.windows =
      scene.windows.map fun w => { w with foreground := w.id == windowId } := by
  rw [setForegroundWindow, if_neg (by simp [ready])]
  simp only [foregroundLoop_eq]

theorem setForegroundWindow_found (ready : scene.zOrderReady = true) (windowId : u32) :
    (setForegroundWindow scene windowId).2 = true ↔ windowId ∈ scene.ids := by
  rw [setForegroundWindow, if_neg (by simp [ready])]
  simp [foregroundLoop_eq, DesktopScene.ids]

theorem setForegroundWindow_rest (scene : DesktopScene) (windowId : u32) :
    (setForegroundWindow scene windowId).1.sessionId = scene.sessionId ∧
      (setForegroundWindow scene windowId).1.zOrderReady = scene.zOrderReady := by
  unfold setForegroundWindow
  split <;> exact ⟨rfl, rfl⟩

theorem setForegroundWindow_ids (scene : DesktopScene) (windowId : u32) :
    (setForegroundWindow scene windowId).1.ids = scene.ids := by
  cases ready : scene.zOrderReady with
  | false => rw [setForegroundWindow_idle ready]
  | true =>
    rw [DesktopScene.ids, setForegroundWindow_windows ready, List.map_map]
    rfl

/-- The windows that are foreground after a call are those of the name. -/
theorem setForegroundWindow_foregrounds (ready : scene.zOrderReady = true) (windowId : u32) :
    (setForegroundWindow scene windowId).1.foregrounds.map Window.id =
      scene.ids.filter fun id => id == windowId := by
  rw [DesktopScene.foregrounds, setForegroundWindow_windows ready, DesktopScene.ids,
    List.filter_map, List.filter_map, List.map_map]
  rfl

/-- Distinct names: the windows of one name are one window, or none. -/
theorem filter_of_nodup {ids : List u32} (distinct : ids.Nodup) (windowId : u32) :
    (ids.filter fun id => id == windowId) = if windowId ∈ ids then [windowId] else [] := by
  rw [List.filter_beq]
  by_cases named : windowId ∈ ids
  case pos => rw [if_pos named, distinct.count, if_pos named, List.replicate_one]
  case neg => rw [if_neg named, List.count_eq_zero_of_not_mem named, List.replicate_zero]

/-- **A call on a scene that is ready** leaves the named window foreground, or none. -/
theorem foregrounds_after (ready : scene.zOrderReady = true) (distinct : scene.ids.Nodup)
    (windowId : u32) :
    (setForegroundWindow scene windowId).1.foregrounds.map Window.id =
      if windowId ∈ scene.ids then [windowId] else [] := by
  rw [setForegroundWindow_foregrounds ready, filter_of_nodup distinct]

theorem hasForeground_iff_ids (scene : DesktopScene) :
    scene.HasForeground ↔ scene.foregrounds.map Window.id ≠ [] :=
  not_congr List.map_eq_nil_iff.symm

theorem not_hasForeground_iff (scene : DesktopScene) :
    ¬ scene.HasForeground ↔ ∀ w ∈ scene.windows, w.foreground = false := by
  simp [DesktopScene.HasForeground, DesktopScene.foregrounds, List.filter_eq_nil_iff]

/-- A call whose name does not exist clears every mark. -/
theorem clears (ready : scene.zOrderReady = true) (absent : windowId ∉ scene.ids) :
    (setForegroundWindow scene windowId).1.windows =
      scene.windows.map fun w => { w with foreground := false } := by
  rw [setForegroundWindow_windows ready]
  refine List.map_congr_left fun w mem => ?_
  have other : w.id ≠ windowId := fun same => absent (same ▸ List.mem_map_of_mem mem)
  rw [beq_eq_false_iff_ne.mpr other]

/-- Clearing the marks changes nothing where there is none. -/
theorem clears_nothing (ready : scene.zOrderReady = true) (absent : windowId ∉ scene.ids) :
    (setForegroundWindow scene windowId).1 = scene ↔ ¬ scene.HasForeground := by
  rw [not_hasForeground_iff]
  constructor
  · intro same w mem
    have marks := clears ready absent
    rw [same] at marks
    rw [marks] at mem
    obtain ⟨v, -, rfl⟩ := List.mem_map.mp mem
    rfl
  · intro none
    have marks := clears ready absent
    have plain : (scene.windows.map fun w => { w with foreground := false }) = scene.windows := by
      conv_rhs => rw [← List.map_id scene.windows]
      refine List.map_congr_left fun w mem => ?_
      rw [← none w mem]
      rfl
    obtain ⟨session, z⟩ := setForegroundWindow_rest scene windowId
    generalize (setForegroundWindow scene windowId).1 = after at marks session z
    obtain ⟨_, _, _, _⟩ := scene
    obtain ⟨_, _, _, _⟩ := after
    simp only at marks session z plain
    simp only [DesktopScene.mk.injEq]
    exact ⟨session, marks.trans plain, z⟩

/-! ## Runs of calls -/

/-- **One call** is atomic exactly if its name exists or no window is foreground. -/
theorem atomic_iff (distinct : scene.ids.Nodup) (windowId : u32) :
    Atomic scene windowId ↔ Harmless scene windowId := by
  cases ready : scene.zOrderReady with
  | false => simp [Atomic, Harmless, setForegroundWindow_idle ready, ready]
  | true =>
    by_cases named : windowId ∈ scene.ids
    case pos =>
      have found := (setForegroundWindow_found ready windowId).mpr named
      have marks := foregrounds_after ready distinct windowId
      rw [if_pos named] at marks
      exact iff_of_true ⟨fun _ => marks, fun failed => by simp [found] at failed⟩
        (.inr (.inl named))
    case neg =>
      have failed : (setForegroundWindow scene windowId).2 = false := by
        rw [← Bool.not_eq_true, setForegroundWindow_found ready]
        exact named
      rw [Atomic, failed, clears_nothing ready named]
      simp [Harmless, ready, named]

/-- A call loses the foreground exactly if its name does not exist and there is one. -/
theorem remains_iff (distinct : scene.ids.Nodup) (windowId : u32) :
    Remains scene windowId ↔ Harmless scene windowId := by
  cases ready : scene.zOrderReady with
  | false => simp [Remains, Harmless, setForegroundWindow_idle ready, ready]
  | true =>
    have marks := foregrounds_after ready distinct windowId
    rw [Remains, hasForeground_iff_ids (setForegroundWindow scene windowId).1, marks]
    by_cases named : windowId ∈ scene.ids <;> simp [Harmless, ready, named]

theorem nodup_step {scene scene' : DesktopScene} {windowId : u32} (distinct : scene.ids.Nodup)
    (h : step scene windowId = some scene') : scene'.ids.Nodup := by
  obtain rfl := Option.some.inj h
  rw [setForegroundWindow_ids]
  exact distinct

/-- A call leaves at most one window foreground. -/
theorem atMostOne_step (distinct : scene.ids.Nodup) (one : scene.AtMostOne)
    (h : step scene windowId = some scene') : scene'.AtMostOne := by
  obtain rfl := Option.some.inj h
  cases ready : scene.zOrderReady with
  | false =>
    rw [setForegroundWindow_idle ready]
    exact one
  | true =>
    rw [DesktopScene.AtMostOne, ← List.length_map (f := Window.id),
      foregrounds_after ready distinct]
    split <;> simp

/-- **The scene a session starts with** has distinct windows, and its shell window is the
one in the foreground. -/
theorem windowManagerStart_foreground {desktopSession : u32} {surface : ShellSurface}
    (h : windowManagerStart desktopSession surface = some scene) :
    scene.ids = [1, 2, 3] ∧ scene.Foreground 2 := by
  unfold windowManagerStart createDesktopScene at h
  by_cases zero : desktopSession = 0
  case pos => simp [zero] at h
  case neg =>
    rw [if_neg zero] at h
    simp only [attachShellSurface] at h
    by_cases other : surface.sessionId ≠ desktopSession ∨ surface.boundToExplorer = false
    case pos =>
      rw [if_pos other] at h
      simp at h
    case neg =>
      rw [if_neg other] at h
      obtain rfl := Option.some.inj h
      exact ⟨rfl, rfl⟩

/-- **SetForegroundWindow, over every sequence of calls**: each call is atomic, and a
window remains foreground, exactly as long as no call on a ready scene with a foreground
window gives a name that does not exist. At most one window is foreground in any case. -/
theorem foreground_atomic (scene : DesktopScene) (distinct : scene.ids.Nodup) :
    (∀ windowId, Atomic scene windowId ↔ Harmless scene windowId) ∧
    (∀ calls, Along step Atomic scene calls ↔ Along step Harmless scene calls) ∧
    (∀ calls, Along step Remains scene calls ↔ Along step Harmless scene calls) ∧
    (scene.AtMostOne → ∀ calls, Always step DesktopScene.AtMostOne scene calls) := by
  have runs : ∀ {G : DesktopScene → u32 → Prop},
      (∀ s a, s.ids.Nodup → (G s a ↔ Harmless s a)) →
      ∀ calls, Along step G scene calls ↔ Along step Harmless scene calls :=
    fun same calls => along_iff (I := fun s => s.ids.Nodup)
      (fun _ _ _ distinct _ h => nodup_step distinct h) same distinct
  refine ⟨atomic_iff distinct, runs fun s a distinct => atomic_iff distinct a,
    runs fun s a distinct => remains_iff distinct a, fun one calls => ?_⟩
  have both : Always step (fun s => s.ids.Nodup ∧ s.AtMostOne) scene calls :=
    always_invariant (G := fun _ _ => True)
      (fun s a t inv _ h => ⟨nodup_step inv.1 h, atMostOne_step inv.1 inv.2 h⟩) ⟨distinct, one⟩
      (along_of_forall (fun _ _ => trivial) scene calls)
  exact both.mono fun s inv => inv.2

/-- The scene that session 1 starts with. -/
def firstScene : DesktopScene where
  sessionId := 1
  windows := [makeWindow 1 .Desktop "Progman",
    { makeWindow 2 .Shell "explorer.exe" with foreground := true },
    makeWindow 3 .Taskbar "Shell_TrayWnd"]
  room := by decide
  zOrderReady := true

example : windowManagerStart 1 ⟨1, true⟩ = some firstScene := by decide

theorem foreground_atomic_first :
    (∀ calls, Along step Remains firstScene calls ↔ Along step Harmless firstScene calls) ∧
      ∀ calls, Always step DesktopScene.AtMostOne firstScene calls := by
  have whole := foreground_atomic firstScene (by decide)
  exact ⟨whole.2.2.1, whole.2.2.2 (by decide)⟩

/-- **A name that does not exist** fails and takes the foreground from the shell. -/
theorem foreground_lost :
    ¬ ∀ scene : DesktopScene, scene.ids.Nodup → ∀ windowId,
      Atomic scene windowId ∧ Remains scene windowId := by
  intro h
  have here := (h firstScene (by decide) 9).1.2 (by decide)
  exact absurd here (by decide)

end MicroNT.WindowMgr
