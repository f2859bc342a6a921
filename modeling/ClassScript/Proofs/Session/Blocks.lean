import ClassScript.Proofs.Session.Succession

/-!
# What the environments of blocks hold

Nothing but the names that its statements declare is ever held by the environment that a block
makes, as long as its session goes on (`History.has_of_block`).  So the environment of a block
that declares nothing stays empty.

The names that the scope of an environment declares are its naming, which is kept from
any visit to what follows it.  A visit that ends under a naming lets the visit that started it
end under a later one (`Plan.Safe.carries`), and so on out to its program and to the end of the
session.
-/

namespace ClassScript

open Resolution Run

/-- The visit starts under the first naming and ends under the second one, with a known heap and
a known result. -/
structure Visit.EndsUnder (settings : Settings) (roots : List Root) (ν ν' : Naming) (u : Visit) :
    Prop where
  later : Later settings roots ν u.heap ν' (u.lastHeap settings)
  result : ∀ a m, u.run settings = .ok a m → u.code.ResultKnown settings roots ν' m a

section

variable {settings : Settings} {roots runs : List Root} {ν ν' : Naming} {m : Machine}
  {v v' u : Visit} {i : Nat}

theorem Visit.EndsUnder.of_ends
    (h : Ends settings roots runs (fun ν m a => u.code.ResultKnown settings roots ν m a) ν
      u.machine (u.run settings)) : ∃ ν', u.EndsUnder settings roots ν ν' := by
  unfold Ends at h
  cases hr : u.run settings with
  | ok a m =>
    rw [hr] at h
    obtain ⟨ν', hl, ha⟩ := h
    exact ⟨ν', by rwa [Visit.lastHeap, hr], fun b m₁ hb => by cases hr.symm.trans hb; exact ha⟩
  | error e m =>
    rw [hr] at h
    obtain ⟨-, ν', hl⟩ := h
    exact ⟨ν', by rwa [Visit.lastHeap, hr], fun b m₁ hb => by cases hr.symm.trans hb⟩

/-- From the end of a visit that a safe plan comes to, the plan goes on to a known end. -/
theorem Plan.Safe.carries {α : Type} {Q : Naming → Machine → α → Prop} {fuel : Nat} {p : Plan α}
    (hp : p.Safe settings roots runs v Q ν m) (hk : m.heap.Known settings roots ν)
    (ih : ∀ (u : Visit) (ν : Naming), u.fuel = fuel → u.Known settings roots runs ν →
      Ends settings roots runs (fun ν m a => u.code.ResultKnown settings roots ν m a) ν u.machine
        (u.run settings))
    (hmeets : ∀ i depth code m', p.Meets (Code.run settings fuel) m i depth code m' →
      v.Starts settings i ⟨fuel, depth, code, m'⟩) {depth : Nat} {code : Code} {m' : Machine}
    (h : p.Meets (Code.run settings fuel) m i depth code m') :
    ∃ ν', Visit.Known settings roots runs ν' ⟨fuel, depth, code, m'⟩ ∧
      Later settings roots ν m.heap ν' m'.heap ∧
      ∀ ν₁, Visit.EndsUnder settings roots ν' ν₁ ⟨fuel, depth, code, m'⟩ →
        ∃ ν₂, Later settings roots ν₁ (Visit.lastHeap settings ⟨fuel, depth, code, m'⟩) ν₂
            (lastMachine (p.follow (Code.run settings fuel) m)).heap ∧
          ∀ a m₁, p.follow (Code.run settings fuel) m = .ok a m₁ → Q ν₂ m₁ a := by
  induction h generalizing ν with
  | here i depth code next m =>
    have hknown := hp.1 fuel (hmeets _ _ _ _ (.here ..))
    refine ⟨ν, hknown, .refl hk, fun ν₁ he => ?_⟩
    have hlater := he.later
    have hresult := he.result
    unfold Visit.lastHeap Visit.run at hlater ⊢
    unfold Visit.run at hresult
    dsimp only at hlater hresult ⊢
    unfold follow
    rw [bind_apply]
    cases hs : code.run settings fuel depth m with
    | error e m' =>
      rw [hs] at hlater
      exact ⟨ν₁, .refl hlater.known, fun _ _ h => by cases h⟩
    | ok a m' =>
      rw [hs] at hlater hresult
      have hsound := ((hp.2 a ν₁ m' hlater (hresult a m' rfl)).sound hlater.known ih
        fun i depth code m₁ hm => hmeets i depth code m₁ (.call hs hm)).1
      dsimp only
      generalize (next a).follow (Code.run settings fuel) m' = r at hsound
      cases r with
      | ok b m'' =>
        obtain ⟨ν₂, hl, hq⟩ := hsound
        exact ⟨ν₂, hl, fun _ _ h => by cases h; exact hq⟩
      | error e m'' =>
        obtain ⟨-, ν₂, hl⟩ := hsound
        exact ⟨ν₂, hl, fun _ _ h => by cases h⟩
  | act hs _ ihm =>
    unfold Safe at hp
    rw [hs] at hp
    obtain ⟨ν', hl, hb⟩ := hp
    obtain ⟨ν₁, hknown, hl₁, hcarry⟩ := ihm hb hl.known fun i depth code m₁ hm =>
      hmeets i depth code m₁ (.act hs hm)
    refine ⟨ν₁, hknown, hl.trans hl₁, ?_⟩
    unfold follow
    rw [bind_apply, hs]
    exact hcarry
  | @call part n other next m m₁ m₂ a i depth code hs _ ihm =>
    have hknown := hp.1 fuel (hmeets _ _ _ _ (.here ..))
    have hrun : Ends settings roots runs _ ν m (other.run settings fuel n m) := ih _ ν rfl hknown
    rw [hs] at hrun
    obtain ⟨ν', hl, ha⟩ := hrun
    obtain ⟨ν₁, hknown, hl₁, hcarry⟩ := ihm (hp.2 a ν' m₁ hl ha) hl.known
      fun i depth code m₁ hm => hmeets i depth code m₁ (.call hs hm)
    refine ⟨ν₁, hknown, hl.trans hl₁, ?_⟩
    unfold follow
    rw [bind_apply, hs]
    exact hcarry

section

variable (hroots : ∀ r ∈ roots, r.Accepted) (hsub : runs ⊆ roots) (hb : settings.lookup = .bound)
include hroots hsub hb

/-- A known visit ends under a naming. -/
theorem Visit.Known.endsUnder (hv : v.Known settings roots runs ν) :
    ∃ ν', v.EndsUnder settings roots ν ν' :=
  Visit.EndsUnder.of_ends (hv.run hroots hsub hb v.fuel v ν rfl)

/-- From the end of a visit, the one that started it goes on to a known end. -/
theorem Visit.Known.carries (hv : v.Known settings roots runs ν) (hs : v.Starts settings i v') :
    ∃ ν', v'.Known settings roots runs ν' ∧ ∀ ν₁, v'.EndsUnder settings roots ν' ν₁ →
      ∃ ν₂, v.EndsUnder settings roots ν ν₂ ∧
        Later settings roots ν₁ (v'.lastHeap settings) ν₂ (v.lastHeap settings) := by
  obtain ⟨ν', hknown, hl, hcarry⟩ := (hv.plan_safe hroots hsub hb hs.1).carries hv.heap
    (Visit.Known.run hroots hsub hb v'.fuel) (fun i depth code m' hm => ⟨hs.1, hm⟩) hs.2
  refine ⟨ν', hknown, fun ν₁ he => ?_⟩
  obtain ⟨ν₂, hl₂, hq⟩ := hcarry ν₁ he
  have hrun : v.run settings =
      (v.code.plan settings v.depth).follow (Code.run settings v'.fuel) v.machine := by
    rw [Visit.run, hs.1, Code.run_succ]
  rw [← hrun] at hl₂ hq
  exact ⟨ν₂, ⟨hl.trans (he.later.trans hl₂), hq⟩, hl₂⟩

theorem Visit.Known.covers_carries (hc : v.Covers settings u) (hv : v.Known settings roots runs ν) :
    ∃ ν', u.Known settings roots runs ν' ∧ ∀ ν₁, u.EndsUnder settings roots ν' ν₁ →
      ∃ ν₂, v.EndsUnder settings roots ν ν₂ ∧
        Later settings roots ν₁ (u.lastHeap settings) ν₂ (v.lastHeap settings) := by
  induction hc generalizing ν with
  | refl v => exact ⟨ν, hv, fun ν₁ he => ⟨ν₁, he, .refl he.later.known⟩⟩
  | step hs _ _ ih =>
    obtain ⟨ν', hv', hcarry⟩ := hv.carries hroots hsub hb hs
    obtain ⟨ν'', hu, hcarry'⟩ := ih hv'
    refine ⟨ν'', hu, fun ν₁ he => ?_⟩
    obtain ⟨ν₂, he₂, hl₂⟩ := hcarry' ν₁ he
    obtain ⟨ν₃, he₃, hl₃⟩ := hcarry ν₂ he₂
    exact ⟨ν₃, he₃, hl₂.trans hl₃⟩

/-- From the end of a statement, its program goes on to a known end. -/
theorem Root.Comes.carries {r : Root} {w w₁ w₂ : Site} (hr : r ∈ runs) (hc : r.Comes settings w m)
    (hp : w.parts = [w₁, w₂]) (he : (r.visit w₁ m).EndsUnder settings roots ν ν') :
    ∃ ν₂, Later settings roots ν' ((r.visit w₁ m).lastHeap settings) ν₂ (r.lastHeap settings) := by
  have hlater := he.later
  unfold Visit.lastHeap at hlater ⊢
  cases hrun : (r.visit w₁ m).run settings with
  | error e m' =>
    rw [hrun] at hlater
    rw [Root.lastHeap, hc.run_error hp hrun]
    exact ⟨ν', .refl hlater.known⟩
  | ok a m' =>
    rw [hrun] at hlater
    have hnext := hc.next hp hrun
    obtain ⟨body, hn⟩ := hnext.node
    obtain ⟨program, hprogram, hend⟩ := hnext.ends hroots hsub hb hr hn hlater.known
    obtain ⟨program', hprogram', hrest⟩ := hnext.run_eq
    obtain rfl : program' = program := Node.stmts.inj (hprogram'.symm.trans hprogram)
    rw [hrest] at hend
    unfold Root.lastHeap
    generalize r.run settings = result at hend ⊢
    cases result with
    | ok b m'' =>
      obtain ⟨ν₂, hl, -⟩ := hend
      exact ⟨ν₂, hl⟩
    | error e m'' =>
      obtain ⟨-, ν₂, hl⟩ := hend
      exact ⟨ν₂, hl⟩

end

end

/-- From the end of a program, its session goes on with known heaps. -/
theorem History.later {settings : Settings} {s : Session} {roots : List Root}
    (hb : settings.lookup = .bound) (hh : History settings s roots) {all : List Root}
    (hall : ∀ r ∈ all, r.Accepted) (hsub : roots ⊆ all) {r : Root} (hr : r ∈ roots) {ν : Naming}
    (hk : (r.lastHeap settings).Known settings all ν) :
    ∃ ν', Later settings all ν (r.lastHeap settings) ν' s.heap := by
  induction hh with
  | start => cases hr
  | @run s roots fuel source _ ha ih =>
    have hmem : s.root fuel source ∈ all :=
      hsub (List.mem_append_right _ (List.mem_singleton_self _))
    rw [(Session.submit_of_accepts ha).1]
    rcases List.mem_append.mp hr with hr | hr
    · obtain ⟨ν', hl⟩ := ih (fun r hr => hsub (List.mem_append_left _ hr)) hr
      obtain ⟨-, ν'', hl'⟩ := Root.ends hall hb hmem hl.known
      exact ⟨ν'', hl.trans hl'⟩
    · obtain rfl := List.mem_singleton.mp hr
      exact ⟨ν, .refl hk⟩
  | refuse fuel _ ha ih =>
    rw [(Session.submit_of_not_accepts ha).1]
    exact ih hsub hr
  | forgive _ ih => exact ih hsub hr
  | closeLog _ ih => exact ih hsub hr

/-! ## Blocks -/

theorem Site.names_of_block? {w w' : Site} {body : List (Stmt Binding)}
    (hr : w.resolved = .stmt (.block body)) (hw : w.block? = some w') :
    w'.names = declaredNames body :: w.names := by
  obtain ⟨s, hn, hr⟩ := w.stmt_of_resolved hr
  obtain ⟨context, names, node, state⟩ := w
  obtain rfl : node = .stmt s := hn
  cases s with
  | block body' =>
    cases hw
    cases hr
    exact congrArg (· :: names) (declaredNames_resolveStmts context body' _).symm
  | _ => cases hw

section

variable {settings : Settings} {s : Session} {roots : List Root} {v v' : Visit} {env : EnvId}
  {body : List (Stmt Binding)}

/-- A block ends under a naming that has the names of its statements for its environment. -/
theorem Visit.Known.block_endsUnder {ν : Naming} (hroots : ∀ r ∈ roots, r.Accepted)
    (hb : settings.lookup = .bound) (hv : v.Known settings roots roots ν)
    (hc : v.code = .node env (.stmt (.block body))) (hs : v.Starts settings 0 v') :
    ∃ ν', v.EndsUnder settings roots ν ν' ∧ ν' v.heap.nextEnv = declaredNames body ∧
      v.heap.nextEnv.index < (v.lastHeap settings).environments.size := by
  obtain ⟨fuel, depth, code, m⟩ := v
  obtain rfl : code = .node env (.stmt (.block body)) := hc
  obtain ⟨hreached, hk, w, ρ, hlockstep, hnames⟩ := hv
  have ht : Traced settings roots roots ν ⟨fuel, depth, .node env (.stmt (.block body)), m⟩ w ρ :=
    ⟨hreached, hk, hlockstep, hnames⟩
  obtain ⟨rfl, hr⟩ := Code.node.inj (ht.fits hroots).code
  obtain ⟨w', -, hw, -⟩ := Site.block?_of_block hr.symm
  have hn := Site.names_of_block? hr.symm hw
  -- The environment of the block is named, and the naming is kept while its statements run.
  obtain ⟨ν₁, hl₁, -, hnext⟩ : Ends settings roots roots _ ν m (newEnv ρ.env ∅ m) :=
    newEnv_ends hroots hk nofun rfl nofun
  obtain ⟨n, rfl⟩ : ∃ n, fuel = n + 1 := ⟨_, hs.1⟩
  have hinner := (ht.block hroots hw hn hl₁ hnext).1 n ⟨rfl, .act rfl (.here ..)⟩
  obtain ⟨ν₂, hl₂, hresult⟩ := hinner.endsUnder hroots (List.Subset.refl _) hb
  have hrun : Visit.run settings ⟨n + 1, depth, .node ρ.env (.stmt (.block body)), m⟩ =
      Visit.run settings ⟨n, depth, .node m.heap.nextEnv (.stmts body), m.pushEnv ρ.env ∅⟩ := by
    show execute settings (n + 1) depth ρ.env (.block body) m = _
    rw [Run.execute]
    rfl
  have hlt : m.heap.nextEnv.index < (m.pushEnv ρ.env ∅).heap.environments.size := by
    simp [Heap.nextEnv, Heap.pushEnv]
  unfold Visit.lastHeap at hl₂
  refine ⟨ν₂, ⟨?_, fun a m' ha => hresult a m' (hrun ▸ ha)⟩, (hl₂.keeps _ hlt).trans hnext, ?_⟩
  · rw [Visit.lastHeap, hrun]
    exact hl₁.trans hl₂
  · rw [Visit.lastHeap, hrun]
    exact Nat.lt_of_lt_of_le hlt hl₂.grows.size

/-- However a session goes on, the environment of a block holds none but the names that the
statements of the block declare. -/
theorem History.has_of_block (hb : settings.lookup = .bound) (hh : History settings s roots)
    (hv : Reached settings roots v) (hc : v.code = .node env (.stmt (.block body)))
    (hs : v.Starts settings 0 v') {x : String} (hx : s.heap.Has v.heap.nextEnv x) :
    x ∈ declaredNames body := by
  obtain ⟨hroots, hknown⟩ := hh.invariant hb
  have hstarts := (hknown roots hroots (List.Subset.refl _)).1
  obtain ⟨t, ⟨r, w, w₁, w₂, m, hr, hcomes, hp, rfl⟩, hcovers⟩ := hv.top
  obtain ⟨ν, hν⟩ := hcomes.known hroots (List.Subset.refl _) hb hr (hstarts r hr)
  have htop := Root.visit_known hroots (List.Subset.refl _) hr hcomes hp hν
  obtain ⟨ν₁, hv₁, hcarry⟩ := Visit.Known.covers_carries hroots (List.Subset.refl _) hb hcovers htop
  obtain ⟨ν₂, he₂, hnames, hlt⟩ := hv₁.block_endsUnder hroots hb hc hs
  obtain ⟨ν₃, he₃, hl₃⟩ := hcarry ν₂ he₂
  obtain ⟨ν₄, hl₄⟩ := hcomes.carries hroots (List.Subset.refl _) hb hr hp he₃
  obtain ⟨ν₅, hl₅⟩ := hh.later hb hroots (List.Subset.refl _) hr hl₄.known
  have hl := (hl₃.trans hl₄).trans hl₅
  have hne : v.heap.nextEnv ≠ .globals := fun h =>
    Nat.ne_of_gt hv₁.heap.outermost.lt_size (congrArg EnvId.index h)
  rw [← hnames, ← hl.keeps _ hlt]
  exact hl₅.known.named _ x hne hx

end

end ClassScript
