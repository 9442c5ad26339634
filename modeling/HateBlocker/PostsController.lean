-- `PostsController`: from a change of the manager's list, through a block on the
-- main queue and the delegate, to the table of the embedded content controller.
import HateBlocker.ContainerController
import HateBlocker.PostsManager

open Runs UIKit

namespace HateBlocker

/-! ## The content controller -/

/-- A controller with the dependency that it shows. -/
structure HBViewController (Dependency : Type) where
  dependency : Dependency
  isViewLoaded : Bool

structure PostsContentDependency where
  posts : List Post

/-- What a table got from its data source: the row count, and the posts that stood behind it. -/
structure TableRows where
  count : ℕ
  posts : List Post

/-- The rows that the table last obtained. It first asks for any in a layout pass. -/
structure UITableView where
  loaded : Option TableRows

structure PostsContentViewController extends HBViewController PostsContentDependency where
  tableView : Option UITableView

namespace PostsContentViewController

def numberOfRowsInSection (c : PostsContentViewController) : ℕ := c.dependency.posts.length

/-- The post of a row. Past the end of the array the subscript traps. -/
def cellForRowAt (c : PostsContentViewController) (row : ℕ) : Option Post :=
  c.dependency.posts[row]?

/-- What the table obtains when it loads its rows. -/
def tableRows (c : PostsContentViewController) : TableRows :=
  ⟨c.numberOfRowsInSection, c.dependency.posts⟩

/-- `tableView.reloadData()`. Without a table the unwrapping traps. -/
def dependencyUpdated (c : PostsContentViewController) : Option PostsContentViewController :=
  match c.tableView with
  | some _ => some { c with tableView := some ⟨some c.tableRows⟩ }
  | none => none

/-- An assignment to `dependency`, with its `didSet`. -/
def setDependency (c : PostsContentViewController) (dependency : PostsContentDependency) :
    Option PostsContentViewController :=
  let c := { c with dependency := dependency }
  if c.isViewLoaded then c.dependencyUpdated else some c

/-- `setup` makes the table, and its use of `view` loads the view. -/
def setup (c : PostsContentViewController) : PostsContentViewController :=
  { c with isViewLoaded := true, tableView := some ⟨none⟩ }

/-- `init(dependency:)`. -/
def make (dependency : PostsContentDependency) : PostsContentViewController :=
  setup { dependency := dependency, isViewLoaded := false, tableView := none }

/-- A layout pass: a table that has not loaded its rows yet does so. -/
def layout (c : PostsContentViewController) : PostsContentViewController :=
  match c.tableView with
  | some ⟨none⟩ => { c with tableView := some ⟨some c.tableRows⟩ }
  | _ => c

/-- The controller holds these posts, and so does its table once it has loaded any rows. -/
structure Shows (c : PostsContentViewController) (posts : List Post) : Prop where
  held : c.dependency.posts = posts
  loaded : ∀ table rows, c.tableView = some table → table.loaded = some rows →
    rows = ⟨posts.length, posts⟩

/-- A loaded view with a table whose rows are those of the dependency. -/
structure Ready (c : PostsContentViewController) : Prop where
  isViewLoaded : c.isViewLoaded = true
  table : ∃ table, c.tableView = some table
  shows_own : c.Shows c.dependency.posts

variable {c : PostsContentViewController}

theorem ready_make {dependency : PostsContentDependency} : (make dependency).Ready where
  isViewLoaded := rfl
  table := ⟨_, rfl⟩
  shows_own := ⟨rfl, by rintro table rows ⟨⟩ ⟨⟩⟩

/-- Freshly loaded rows are those of the dependency. -/
theorem shows_of_tableRows (isViewLoaded : Bool) (dependency : PostsContentDependency) :
    Shows ⟨⟨dependency, isViewLoaded⟩, some ⟨some ⟨dependency.posts.length, dependency.posts⟩⟩⟩
      dependency.posts := by
  refine ⟨rfl, ?_⟩
  rintro table rows ⟨⟩ ⟨⟩
  rfl

/-- With a loaded view an assignment reloads the table. -/
theorem Ready.setDependency (h : c.Ready) (dependency : PostsContentDependency) :
    ∃ d, c.setDependency dependency = some d ∧ d.Ready ∧ d.Shows dependency.posts := by
  obtain ⟨table, htable⟩ := h.table
  have hshows := shows_of_tableRows c.isViewLoaded dependency
  have hready : Ready ⟨⟨dependency, c.isViewLoaded⟩,
      some ⟨some ⟨dependency.posts.length, dependency.posts⟩⟩⟩ :=
    ⟨h.isViewLoaded, ⟨_, rfl⟩, hshows⟩
  refine ⟨_, ?_, hready, hshows⟩
  simp [PostsContentViewController.setDependency, h.isViewLoaded, dependencyUpdated, htable,
    tableRows, numberOfRowsInSection]

theorem layout_dependency : c.layout.dependency = c.dependency := by
  unfold layout
  split <;> rfl

theorem Ready.layout (h : c.Ready) : c.layout.Ready := by
  unfold PostsContentViewController.layout
  split
  · exact ⟨h.isViewLoaded, ⟨_, rfl⟩, shows_of_tableRows c.isViewLoaded c.dependency⟩
  · exact h

/-- After a layout pass the table has its rows. -/
theorem Ready.layout_loaded (h : c.Ready) :
    ∃ table, c.layout.tableView = some table ∧
      table.loaded = some ⟨c.dependency.posts.length, c.dependency.posts⟩ := by
  obtain ⟨⟨loaded⟩, htable⟩ := h.table
  unfold PostsContentViewController.layout
  cases loaded with
  | none =>
    simp only [htable]
    exact ⟨_, rfl, rfl⟩
  | some rows =>
    have hrows := h.shows_own.loaded _ _ htable rfl
    subst hrows
    simp only [htable]
    exact ⟨_, rfl, rfl⟩

/-- Every row that the table knows of has a post. -/
theorem Ready.cellForRowAt (h : c.Ready) {table : UITableView} (htable : c.tableView = some table)
    {rows : TableRows} (hrows : table.loaded = some rows) {row : ℕ} (hrow : row < rows.count) :
    ∃ post, c.cellForRowAt row = some post := by
  rw [h.shows_own.loaded _ _ htable hrows] at hrow
  exact ⟨_, List.getElem?_eq_getElem hrow⟩

end PostsContentViewController

/-! ## The screen -/

/-- The posts controller and the controller that it embeds. -/
inductive Controller
  | posts
  | content
  deriving DecidableEq

/-- The manager, the containers, and the content controller once there is one. -/
structure PostsScreen where
  manager : PostsManager Controller
  containers : State Controller
  content : Option PostsContentViewController

namespace PostsScreen

def start : PostsScreen := ⟨PostsManager.empty, State.apart, none⟩

/-- `contentDependency`. -/
def contentDependency (s : PostsScreen) : PostsContentDependency := ⟨s.manager.posts⟩

/-- `embededController as? PostsContentViewController`. -/
def embededContent (s : PostsScreen) : Option PostsContentViewController :=
  match s.containers.embededController .posts with
  | some .content => s.content
  | _ => none

/-- The main queue without its first block. -/
def dequeue (s : PostsScreen) (rest : List Block) : PostsScreen :=
  { s with manager := { s.manager with mainQueue := rest } }

/-- `setup` of the posts controller. -/
def setup (s : PostsScreen) : PostsScreen where
  manager := { s.manager with delegate := some .posts }
  containers := embed s.containers .posts .content (.root .posts) false true
  content := some (.make s.contentDependency)

def postsManagerDidUpdate (s : PostsScreen) : Option PostsScreen :=
  match s.embededContent with
  | some controller =>
    match controller.setDependency s.contentDependency with
    | some controller => some { s with content := some controller }
    | none => none
  | none => some s

/-- The block of `managerUpdated` runs. The delegate is weak, but the posts controller stays on
its navigation stack. -/
def runBlock (s : PostsScreen) : Block → Option PostsScreen
  | .managerUpdated =>
    match s.manager.delegate with
    | some _ => s.postsManagerDidUpdate
    | none => some s

end PostsScreen

/-- An event of the database reaches the manager, the posts controller is made, the main queue
runs its first block, or the table is laid out. -/
inductive ScreenEvent
  | receive (operation : Operation) (post : Post)
  | create
  | runFirst
  | layout
  deriving DecidableEq

/-- A step, where one is possible. A trap is no step. -/
def screenStep (s : PostsScreen) : ScreenEvent → Option PostsScreen
  | .receive operation post => some { s with manager := s.manager.receive operation post }
  | .create =>
    match s.content with
    | none => some s.setup
    | some _ => none
  | .runFirst =>
    match s.manager.mainQueue with
    | block :: rest => (s.dequeue rest).runBlock block
    | [] => none
  | .layout =>
    match s.content with
    | some content => some { s with content := some content.layout }
    | none => none

/-! ## What every step keeps -/

/-- Before the content controller is made nothing is embedded. From then on the delegate is set,
the cast succeeds, and the content controller has the list of the manager unless a block waits. -/
structure Connected (s : PostsScreen) : Prop where
  unset : s.content = none → s.containers.embededController .posts = none
  delegate : ∀ c, s.content = some c → s.manager.delegate = some .posts
  embeded : ∀ c, s.content = some c → s.containers.embededController .posts = some .content
  ready : ∀ c, s.content = some c → c.Ready
  current : ∀ c, s.content = some c →
    c.dependency.posts = s.manager.posts ∨ s.manager.mainQueue ≠ []

namespace Connected

variable {s u : PostsScreen}

theorem start : Connected PostsScreen.start where
  unset := fun _ => rfl
  delegate := by rintro c ⟨⟩
  embeded := by rintro c ⟨⟩
  ready := by rintro c ⟨⟩
  current := by rintro c ⟨⟩

theorem receive (h : Connected s) (operation : Operation) (post : Post) :
    Connected { s with manager := s.manager.receive operation post } := by
  rcases s.manager.receive_cases operation post with heq | ⟨posts, heq⟩
  · rw [heq]
    exact h
  · rw [heq]
    exact ⟨h.unset, h.delegate, h.embeded, h.ready, fun c _ => Or.inr (by simp)⟩

/-- The content controller starts with the current list, whatever waits. -/
theorem setup (s : PostsScreen) : Connected s.setup where
  unset := by rintro ⟨⟩
  delegate := by
    intro c _
    rfl
  embeded := by
    intro c _
    simp [PostsScreen.setup]
  ready := by
    rintro c ⟨⟩
    exact PostsContentViewController.ready_make
  current := by
    rintro c ⟨⟩
    exact Or.inl rfl

/-- The cast succeeds exactly when there is a content controller. -/
theorem embededContent (h : Connected s) : s.embededContent = s.content := by
  unfold PostsScreen.embededContent
  cases hc : s.content with
  | none => simp [h.unset hc]
  | some c => simp [h.embeded c hc]

/-- Without a content controller a block does nothing. -/
theorem runBlock_none (h : Connected s) (hc : s.content = none) (rest : List Block)
    (block : Block) : (s.dequeue rest).runBlock block = some (s.dequeue rest) := by
  have hcast : (s.dequeue rest).embededContent = none := h.embededContent.trans hc
  simp only [PostsScreen.runBlock, PostsScreen.postsManagerDidUpdate, hcast]
  split <;> rfl

/-- A block that runs brings the current list to the table. -/
theorem runBlock_some (h : Connected s) {c : PostsContentViewController} (hc : s.content = some c)
    (rest : List Block) (block : Block) :
    ∃ d, (s.dequeue rest).runBlock block = some { s.dequeue rest with content := some d } ∧
      d.Ready ∧ d.Shows s.manager.posts := by
  obtain ⟨d, hd, hready, hshows⟩ := (h.ready c hc).setDependency s.contentDependency
  refine ⟨d, ?_, hready, hshows⟩
  have hcast : (s.dequeue rest).embededContent = some c := h.embededContent.trans hc
  have hset : c.setDependency (s.dequeue rest).contentDependency = some d := hd
  have hdelegate : (s.dequeue rest).manager.delegate = some .posts := h.delegate c hc
  simp only [PostsScreen.runBlock, hdelegate, PostsScreen.postsManagerDidUpdate, hcast, hset]

theorem runFirst (h : Connected s) (hq : s.manager.mainQueue ≠ []) :
    ∃ u, screenStep s .runFirst = some u ∧ Connected u := by
  obtain ⟨block, rest, hrest⟩ := List.exists_cons_of_ne_nil hq
  simp only [screenStep, hrest]
  cases hc : s.content with
  | none =>
    refine ⟨_, h.runBlock_none hc rest block, h.unset, ?_, ?_, ?_, ?_⟩
    all_goals
      intro c hcc
      exact absurd (hc.symm.trans hcc) (by simp)
  | some c =>
    obtain ⟨d, hd, hready, hshows⟩ := h.runBlock_some hc rest block
    refine ⟨_, hd, by rintro ⟨⟩, fun _ _ => h.delegate c hc, fun _ _ => h.embeded c hc, ?_, ?_⟩
    · rintro c' ⟨⟩
      exact hready
    · rintro c' ⟨⟩
      exact Or.inl hshows.held

theorem step {e : ScreenEvent} (h : Connected s) (hu : screenStep s e = some u) : Connected u := by
  cases e with
  | receive operation post =>
    cases hu
    exact h.receive operation post
  | create =>
    simp only [screenStep] at hu
    split at hu
    · cases hu
      exact Connected.setup s
    · cases hu
  | runFirst =>
    have hq : s.manager.mainQueue ≠ [] := by
      intro hnil
      simp [screenStep, hnil] at hu
    obtain ⟨u', hu', hconn⟩ := h.runFirst hq
    rw [hu'] at hu
    cases hu
    exact hconn
  | layout =>
    simp only [screenStep] at hu
    split at hu
    · rename_i c hc
      cases hu
      refine ⟨by rintro ⟨⟩, fun _ _ => h.delegate c hc, fun _ _ => h.embeded c hc, ?_, ?_⟩
      · rintro d ⟨⟩
        exact (h.ready c hc).layout
      · rintro d ⟨⟩
        rw [PostsContentViewController.layout_dependency]
        exact h.current c hc
    · cases hu

theorem of_run {es : List ScreenEvent} (h : run screenStep PostsScreen.start es = some s) :
    Connected s :=
  run_invariant start (fun _ _ _ ht hu => ht.step hu) h

/-- With nothing left to run, the content controller shows the list of the manager. -/
theorem shows_of_drained (h : Connected s) {c : PostsContentViewController}
    (hc : s.content = some c) (hq : s.manager.mainQueue = []) : c.Shows s.manager.posts := by
  rcases h.current c hc with hcur | hne
  · rw [← hcur]
    exact (h.ready c hc).shows_own
  · exact absurd hq hne

end Connected

/-- In every state after the setup the content controller shows the list of the manager or a block
still waits, and with nothing waiting it shows the list, once laid out in its table too. A waiting
block can always run, and each row that the table knows of has a post. -/
theorem no_update_is_lost {es : List ScreenEvent} {s : PostsScreen}
    (h : run screenStep PostsScreen.start es = some s) {c : PostsContentViewController}
    (hc : s.content = some c) :
    (c.Shows s.manager.posts ∨ .managerUpdated ∈ s.manager.mainQueue) ∧
      (s.manager.mainQueue = [] → c.Shows s.manager.posts ∧
        ∃ u d table, screenStep s .layout = some u ∧ u.content = some d ∧
          d.tableView = some table ∧
            table.loaded = some ⟨u.manager.posts.length, u.manager.posts⟩) ∧
      (s.manager.mainQueue ≠ [] → ∃ u, screenStep s .runFirst = some u) ∧
      ∃ table, c.tableView = some table ∧ ∀ rows, table.loaded = some rows →
        ∀ row < rows.count, ∃ post, c.cellForRowAt row = some post := by
  have hs := Connected.of_run h
  refine ⟨?_, ?_, ?_, ?_⟩
  · cases hq : s.manager.mainQueue with
    | nil => exact Or.inl (hs.shows_of_drained hc hq)
    | cons block rest =>
      cases block
      exact Or.inr (List.mem_cons_self ..)
  · intro hq
    have hshows := hs.shows_of_drained hc hq
    obtain ⟨table, htable, hloaded⟩ := (hs.ready c hc).layout_loaded
    refine ⟨hshows, { s with content := some c.layout }, c.layout, table, ?_, rfl, htable, ?_⟩
    · simp [screenStep, hc]
    · rw [hloaded, hshows.held]
  · intro hq
    obtain ⟨u, hu, -⟩ := hs.runFirst hq
    exact ⟨u, hu⟩
  · obtain ⟨table, htable⟩ := (hs.ready c hc).table
    refine ⟨table, htable, ?_⟩
    intro rows hrows row hrow
    exact (hs.ready c hc).cellForRowAt htable hrows hrow

/-- A block that was queued before the setup runs after it, when another post has come. -/
def lateRun : List ScreenEvent :=
  [.receive .added ⟨"a", "Ann", "hi", 1⟩, .create, .layout,
    .receive .added ⟨"b", "Bob", "ho", 2⟩, .runFirst]

theorem no_update_is_lost_around_the_setup :
    ∃ s c, run screenStep PostsScreen.start lateRun = some s ∧ s.content = some c ∧
      (c.Shows s.manager.posts ∨ .managerUpdated ∈ s.manager.mainQueue) := by
  obtain ⟨s, hs⟩ : ∃ s, run screenStep PostsScreen.start lateRun = some s := ⟨_, rfl⟩
  obtain ⟨c, hc⟩ : ∃ c, s.content = some c := by
    cases hs
    exact ⟨_, rfl⟩
  exact ⟨s, c, hs, hc, (no_update_is_lost hs hc).1⟩

end HateBlocker
