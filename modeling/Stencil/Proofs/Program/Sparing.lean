import Stencil.Proofs.Program.Budget
import Stencil.Proofs.Program.Retrace

/-!
# Analyses that spare a template

The trees of a guest template may take the place of an embedding of it in a host (`Inlines`). The
analysis of the host then goes through them where it stands, in the same context, and may have no
entry for the guest there (`Table.Spares`). It succeeds where the analysis with the embedding does,
and ends in the same context (`Inlines.enter`).

One analysis retraces the other step by step, and the guest is where they part. Where its entry is
new, its trees are analysed on both sides, with the same embeddings. Where its entry is found, its
trees are run again on the other side from what they are linked to (`CompiledAll.reruns`): all that
is there and done, since what is not done leads to the guest, and the guest does not lead to itself.
For the same reason no entry of the guest is met before it is done, so none is marked as recursive.
-/

set_option autoImplicit false

namespace Stencil.Analysis

open Markup (Context)

/-! ## The entries of a table -/

/-- The entry for a template in a context. -/
def Table.lookup? (t : Table) (k : String × Context) : Option Entry :=
  List.find? (fun e => (e.name, e.context) = k) t

section

variable {t : Table} {name : String} {c : Context} {n : Nat} {e : Entry} {k : String × Context}

theorem Table.lookup?_eq (t : Table) (name : String) (c : Context) :
    t.lookup? (name, c) = (t.find? name c).bind (t[·]?) := by
  unfold Table.lookup? Table.find?
  rw [List.find?_eq_bind_findIdx?_getElem?]
  congr
  funext e
  simp

theorem Table.lookup?_eq_none : t.lookup? (name, c) = none ↔ t.find? name c = none := by
  rw [Table.lookup?_eq]
  cases h : t.find? name c with
  | none => simp
  | some n =>
    obtain ⟨e, he, -⟩ := Table.find?_eq_some h
    simp [he]

theorem Table.mem_of_lookup? (h : t.lookup? k = some e) : e ∈ t ∧ (e.name, e.context) = k :=
  ⟨List.mem_of_find?_eq_some h, by simpa using List.find?_some h⟩

/-- Where no two entries are for the same template and context, each is found under its own. -/
theorem Table.find?_of_getElem? (distinct : t.keys.Nodup) (hn : t[n]? = some e) :
    t.find? e.name e.context = some n := by
  cases hfind : t.find? e.name e.context with
  | none => exact absurd rfl (Table.ne_of_find?_eq_none hfind e (List.mem_of_getElem? hn) rfl)
  | some m =>
    obtain ⟨d, hd, hname, hc⟩ := Table.find?_eq_some hfind
    have hlt : m < t.keys.length := by
      rw [Table.length_keys]
      exact (List.getElem?_eq_some_iff.mp hd).1
    have same : t.keys[m]? = t.keys[n]? := by
      rw [Table.keys, List.getElem?_map, List.getElem?_map, hd, hn, Option.map_some,
        Option.map_some, hname, hc]
    rw [(List.getElem?_inj hlt distinct).mp same]

theorem Table.lookup?_of_getElem? (distinct : t.keys.Nodup) (hn : t[n]? = some e) :
    t.lookup? (e.name, e.context) = some e := by
  rw [Table.lookup?_eq, Table.find?_of_getElem? distinct hn]
  exact hn

theorem Table.lookup?_start (fresh : t.find? name c = none) (k : String × Context) :
    Table.lookup? (t ++ [⟨name, c, none, false, []⟩]) k =
      if k = (name, c) then some ⟨name, c, none, false, []⟩ else t.lookup? k := by
  by_cases same : k = (name, c)
  · have none_here := Table.lookup?_eq_none.mpr fresh
    rw [if_pos same, same]
    unfold Table.lookup? at none_here ⊢
    rw [List.find?_append, none_here, Option.none_or, List.find?_singleton]
    simp
  · have other : ¬ (name, c) = k := fun h => same h.symm
    rw [if_neg same]
    unfold Table.lookup?
    rw [List.find?_append, List.find?_singleton]
    simp [other]

/-- What is found depends on the templates and contexts of the entries alone. -/
theorem Table.find?_congr {t' : Table} (same : t'.keys = t.keys) (name : String) (c : Context) :
    t'.find? name c = t.find? name c := by
  have of_keys (t : Table) : t.find? name c = t.keys.findIdx? (fun k => k = (name, c)) := by
    unfold Table.find? Table.keys
    rw [List.findIdx?_map]
    congr
    funext e
    simp
  rw [of_keys, of_keys, same]

theorem Table.lookup?_modify (found : t.find? name c = some n) {f : Entry → Entry}
    (hf : ∀ e, (f e).name = e.name ∧ (f e).context = e.context) (k : String × Context) :
    Table.lookup? (t.modify n f) k =
      if k = (name, c) then (t.lookup? k).map f else t.lookup? k := by
  obtain ⟨other, d⟩ := k
  rw [Table.lookup?_eq, Table.lookup?_eq, Table.find?_congr (Table.keys_modify t n f hf)]
  cases hfind : t.find? other d with
  | none => simp
  | some m =>
    obtain ⟨e, he, hname, hc⟩ := Table.find?_eq_some hfind
    rw [Option.bind_some, Option.bind_some, List.getElem?_modify, he]
    change some (if n = m then f e else e) = _
    by_cases same : (other, d) = (name, c)
    · obtain ⟨rfl, rfl⟩ := Prod.mk.inj same
      rw [hfind] at found
      rw [if_pos same, if_pos (Option.some.inj found).symm]
      rfl
    · have hne : n ≠ m := by
        rintro rfl
        obtain ⟨e', he', hname', hc'⟩ := Table.find?_eq_some found
        obtain rfl : e = e' := Option.some.inj (he.symm.trans he')
        exact same (Prod.ext (hname.symm.trans hname') (hc.symm.trans hc'))
      rw [if_neg same, if_neg hne]

end

/-! ## Runs of an embedding -/

section

variable {policy : Policy} {templates : List (String × Template)} {room : Nat} {name : String}
  {c next : Context} {here : Location} {t t₁ : Table} {n : Nat} {e : Entry}

theorem run_revisit_of_done (hn : t[n]? = some e) (done : e.after = some next) (c : Context) :
    (revisit n c).run t = .ok ((n, next), t) := by
  have read : StateT.run (get : Step Table) t = .ok (t, t) := rfl
  rw [revisit, run_bind_of_ok read, hn, Option.bind_some, done]
  rfl

theorem run_revisit_of_open (hn : t[n]? = some e) (isOpen : e.after = none) (c : Context) :
    (revisit n c).run t = .ok ((n, c), t.modify n fun e => { e with recursive := true }) := by
  have read : StateT.run (get : Step Table) t = .ok (t, t) := rfl
  rw [revisit, run_bind_of_ok read, hn, Option.bind_some, isOpen]
  rfl

theorem run_enter_of_found (found : t.find? name c = some n) :
    (enter policy templates (room + 1) name c here).run t = (revisit n c).run t := by
  have read : StateT.run (get : Step Table) t = .ok (t, t) := rfl
  rw [enter, run_bind_of_ok read, found]

/-- An embedding that starts an entry: the template is there, the entry is within the limit, its
body is analysed, and it ends where it starts if it embeds itself. -/
structure Started (policy : Policy) (templates : List (String × Template)) (room : Nat)
    (name : String) (c : Context) (t : Table) (next : Context) (t₁ : Table) : Prop where
  few : t.count name < contextLimit
  body : ∃ template compiled t₂, Record.get? templates name = some template ∧
    (trees policy (enter policy templates room) c template.body).run
      (t ++ [⟨name, c, none, false, []⟩]) = .ok ((compiled, next), t₂) ∧
    ¬ (t₂[t.length]?.any Entry.recursive = true ∧ next ≠ c) ∧
    t₁ = t₂.finish t.length next compiled

theorem run_enter_of_fresh (fresh : t.find? name c = none) :
    (enter policy templates (room + 1) name c here).run t = .ok ((n, next), t₁) ↔
      n = t.length ∧ Started policy templates room name c t next t₁ := by
  have read (t : Table) : StateT.run (get : Step Table) t = .ok (t, t) := rfl
  rw [enter, run_bind_of_ok (read t), fresh]
  dsimp only
  constructor
  · intro h
    split at h
    · cases h
    · next template hget =>
      split at h
      · cases h
      · next few =>
        obtain ⟨_, _, hset, h⟩ := run_bind_eq_ok h
        cases hset
        obtain ⟨⟨compiled, stop⟩, t₂, hbody, h⟩ := run_bind_eq_ok h
        obtain ⟨_, _, hread, h⟩ := run_bind_eq_ok h
        cases hread
        dsimp only at h
        split at h
        · cases h
        · next hcheck =>
          obtain ⟨_, _, hmod, h⟩ := run_bind_eq_ok h
          cases hmod
          cases h
          exact ⟨rfl, Nat.lt_of_not_le few, template, compiled, t₂, hget, hbody, hcheck, rfl⟩
  · rintro ⟨rfl, few, template, compiled, t₂, hget, hbody, hcheck, rfl⟩
    rw [hget]
    dsimp only
    rw [if_neg (Nat.not_le_of_lt few)]
    refine (run_bind_of_ok rfl _).trans ((run_bind_of_ok hbody _).trans ?_)
    refine (run_bind_of_ok (read t₂) _).trans ?_
    rw [if_neg hcheck]
    rfl

end

/-! ## Tables that spare a template -/

/-- An entry with the same end as another, which is marked as recursive only if the other is. -/
def Entry.Keeps (e e' : Entry) : Prop :=
  e'.after = e.after ∧ (e'.recursive = true → e.recursive = true)

/-- The second table has the entries of the first, but for some of one template. -/
structure Table.Spares (guest : String) (t t' : Table) : Prop where
  found : ∀ k e', t'.lookup? k = some e' → ∃ e, t.lookup? k = some e ∧ e.Keeps e'
  kept : ∀ k e, k.1 ≠ guest → t.lookup? k = some e → ∃ e', t'.lookup? k = some e' ∧ e.Keeps e'

/-- The second table is the first but for one template in one context. -/
def Table.SameBut (k : String × Context) (t s : Table) : Prop :=
  ∀ k' ≠ k, s.lookup? k' = t.lookup? k'

section

variable {guest name : String} {c : Context} {k : String × Context} {t t' s s' : Table} {n n' : Nat}

theorem Table.SameBut.refl (k : String × Context) (t : Table) : t.SameBut k t := fun _ _ => rfl

theorem Table.SameBut.trans (h : t.SameBut k t') (g : t'.SameBut k s) : t.SameBut k s :=
  fun k' hne => (g k' hne).trans (h k' hne)

theorem Table.sameBut_start (fresh : t.find? name c = none) :
    t.SameBut (name, c) (t ++ [⟨name, c, none, false, []⟩]) :=
  fun k hne => by rw [Table.lookup?_start fresh, if_neg hne]

theorem Table.sameBut_modify (found : t.find? name c = some n) {f : Entry → Entry}
    (hf : ∀ e, (f e).name = e.name ∧ (f e).context = e.context) :
    t.SameBut (name, c) (t.modify n f) :=
  fun k hne => by rw [Table.lookup?_modify found hf, if_neg hne]

theorem Table.find?_of_lookup? {e : Entry} (h : t.lookup? (name, c) = some e) :
    ∃ n, t.find? name c = some n ∧ t[n]? = some e := by
  rw [Table.lookup?_eq] at h
  exact Option.bind_eq_some_iff.mp h

theorem Table.lookup?_of_find? (h : t.find? name c = some n) :
    ∃ e, t[n]? = some e ∧ t.lookup? (name, c) = some e ∧ e.name = name ∧ e.context = c := by
  obtain ⟨e, he, hname, hc⟩ := Table.find?_eq_some h
  refine ⟨e, he, ?_, hname, hc⟩
  rw [Table.lookup?_eq, h]
  exact he

namespace Table.Spares

/-- Tables that are changed for one template in one context spare as before, if they do there. -/
theorem update (h : Table.Spares guest t t') (hs : t.SameBut k s) (hs' : t'.SameBut k s')
    (found : ∀ e', s'.lookup? k = some e' → ∃ e, s.lookup? k = some e ∧ e.Keeps e')
    (kept : ∀ e, k.1 ≠ guest → s.lookup? k = some e → ∃ e', s'.lookup? k = some e' ∧ e.Keeps e') :
    Table.Spares guest s s' where
  found k' e' he' := by
    by_cases same : k' = k
    · subst same
      exact found e' he'
    · rw [hs k' same]
      exact h.found k' e' (hs' k' same ▸ he')
  kept k' e hne he := by
    by_cases same : k' = k
    · subst same
      exact kept e hne he
    · rw [hs' k' same]
      exact h.kept k' e hne (hs k' same ▸ he)

/-- What is new to the first table is new to the second. -/
theorem fresh (h : Table.Spares guest t t') (fresh : t.find? name c = none) :
    t'.find? name c = none := by
  rw [← Table.lookup?_eq_none] at fresh ⊢
  refine Option.eq_none_iff_forall_ne_some.mpr fun e' he' => ?_
  obtain ⟨e, he, -⟩ := h.found (name, c) e' he'
  rw [fresh] at he
  cases he

/-- An entry is started on both sides. -/
theorem start (h : Table.Spares guest t t') (fresh : t.find? name c = none) :
    Table.Spares guest (t ++ [⟨name, c, none, false, []⟩])
      (t' ++ [⟨name, c, none, false, []⟩]) := by
  have same (t : Table) (fresh : t.find? name c = none) :=
    (Table.lookup?_start fresh (name, c)).trans (if_pos rfl)
  refine h.update (Table.sameBut_start fresh) (Table.sameBut_start (h.fresh fresh)) ?_ ?_
  · intro e' he'
    rw [same t' (h.fresh fresh)] at he'
    exact ⟨e', same t fresh ▸ he', rfl, id⟩
  · intro e _ he
    rw [same t fresh] at he
    exact ⟨e, same t' (h.fresh fresh) ▸ he, rfl, id⟩

/-- An entry is changed on both sides. -/
theorem modify (h : Table.Spares guest t t') (found : t.find? name c = some n)
    (found' : t'.find? name c = some n') {f f' : Entry → Entry}
    (hf : ∀ e, (f e).name = e.name ∧ (f e).context = e.context)
    (hf' : ∀ e, (f' e).name = e.name ∧ (f' e).context = e.context)
    (keeps : ∀ e e', e.Keeps e' → (f e).Keeps (f' e')) :
    Table.Spares guest (t.modify n f) (t'.modify n' f') := by
  obtain ⟨e, -, he, -⟩ := Table.lookup?_of_find? found
  obtain ⟨e', -, he', -⟩ := Table.lookup?_of_find? found'
  obtain ⟨d, hd, hkeeps⟩ := h.found _ e' he'
  obtain rfl : e = d := Option.some.inj (he.symm.trans hd)
  have left : Table.lookup? (t.modify n f) (name, c) = some (f e) := by
    rw [Table.lookup?_modify found hf, if_pos rfl, he]
    rfl
  have right : Table.lookup? (t'.modify n' f') (name, c) = some (f' e') := by
    rw [Table.lookup?_modify found' hf', if_pos rfl, he']
    rfl
  refine h.update (Table.sameBut_modify found hf) (Table.sameBut_modify found' hf') ?_ ?_
  · intro d' hd'
    obtain rfl := Option.some.inj (right.symm.trans hd')
    exact ⟨_, left, keeps e e' hkeeps⟩
  · intro d _ hd
    obtain rfl := Option.some.inj (left.symm.trans hd)
    exact ⟨_, right, keeps e e' hkeeps⟩

/-- An entry of the spared template is changed or new on the first side, while the second has
none. -/
theorem left (h : Table.Spares guest t t') (hs : t.SameBut (guest, c) s)
    (absent : t'.find? guest c = none) : Table.Spares guest s t' := by
  refine h.update hs (.refl _ _) (fun e' he' => ?_) fun e hne => absurd rfl hne
  rw [Table.lookup?_eq_none.mpr absent] at he'
  cases he'

/-- The second side makes up for an entry of the spared template. -/
theorem right (h : Table.Spares guest t t') (hs : t'.SameBut (guest, c) s') {e e' : Entry}
    (he : t.lookup? (guest, c) = some e) (he' : s'.lookup? (guest, c) = some e')
    (keeps : e.Keeps e') : Table.Spares guest t s' := by
  refine h.update (.refl _ _) hs (fun d' hd' => ?_) fun d hne => absurd rfl hne
  obtain rfl := Option.some.inj (he'.symm.trans hd')
  exact ⟨e, he, keeps⟩

theorem keys_subset (h : Table.Spares guest t t') (distinct : t'.keys.Nodup) :
    t'.keys ⊆ t.keys := by
  intro k hk
  obtain ⟨e', he', rfl⟩ := List.mem_map.mp hk
  obtain ⟨n, hn⟩ := List.getElem?_of_mem he'
  obtain ⟨e, he, -⟩ := h.found _ e' (Table.lookup?_of_getElem? distinct hn)
  obtain ⟨hmem, hkey⟩ := Table.mem_of_lookup? he
  exact List.mem_map.mpr ⟨e, hmem, hkey⟩

end Table.Spares

theorem Table.count_le_of_subset (distinct : t'.keys.Nodup) (sub : t'.keys ⊆ t.keys)
    (name : String) : t'.count name ≤ t.count name := by
  have count (t : Table) : t.count name = t.keys.countP fun k => k.1 = name := by
    unfold Table.count Table.keys
    rw [List.countP_map]
    rfl
  rw [count, count]
  exact (List.subperm_of_subset distinct sub).countP_le _

theorem Table.not_mem_keys (fresh : t.find? name c = none) : (name, c) ∉ t.keys := by
  intro hk
  obtain ⟨e, he, heq⟩ := List.mem_map.mp hk
  obtain ⟨hname, hc⟩ := Prod.mk.inj heq
  exact Table.ne_of_find?_eq_none fresh e he hc hname

/-- A table with fewer entries has fewer of a template that it lacks in a context. -/
theorem Table.count_lt_of_subset (distinct : t'.keys.Nodup) (sub : t'.keys ⊆ t.keys)
    (fresh : t'.find? name c = none) (present : (name, c) ∈ t.keys) :
    t'.count name < t.count name := by
  have keys : Table.keys (t' ++ [⟨name, c, none, false, []⟩]) = t'.keys ++ [(name, c)] :=
    List.map_append
  have more : Table.count (t' ++ [⟨name, c, none, false, []⟩]) name = t'.count name + 1 := by
    unfold Table.count
    rw [List.countP_append]
    simp
  have distinct_more : Table.keys (t' ++ [⟨name, c, none, false, []⟩]) |>.Nodup := by
    rw [keys, List.nodup_append]
    refine ⟨distinct, List.nodup_singleton _, fun k hk k' hk' heq => ?_⟩
    rw [heq, List.mem_singleton.mp hk'] at hk
    exact Table.not_mem_keys fresh hk
  have sub_more : Table.keys (t' ++ [⟨name, c, none, false, []⟩]) ⊆ t.keys := by
    rw [keys]
    exact List.append_subset.mpr ⟨sub, by simpa using present⟩
  have := Table.count_le_of_subset distinct_more sub_more name
  omega

/-- An entry that was started is found under its template and context, not done yet. -/
theorem Table.Grows.started (g : Table.Grows (t ++ [⟨name, c, none, false, []⟩]) s)
    (distinct : s.keys.Nodup) :
    ∃ r, s[t.length]? = some ⟨name, c, none, r, []⟩ ∧ s.find? name c = some t.length := by
  have first : (t ++ [(⟨name, c, none, false, []⟩ : Entry)])[t.length]? =
      some ⟨name, c, none, false, []⟩ := by simp
  obtain ⟨r, hr, -⟩ := g.kept _ _ first
  exact ⟨r, hr, Table.find?_of_getElem? distinct hr⟩

/-- The entries of a later table that are not done were there before. -/
theorem Table.Grows.of_open (g : t.Grows s) {e : Entry} (he : e ∈ s) (isOpen : e.after = none) :
    ∃ d ∈ t, d.name = e.name ∧ d.context = e.context ∧ d.after = none := by
  obtain ⟨n, hn⟩ := List.getElem?_of_mem he
  by_cases hlen : t.length ≤ n
  · exact absurd isOpen (g.finished n e hn hlen)
  · have hget := List.getElem?_eq_getElem (Nat.lt_of_not_le hlen)
    obtain ⟨r, hr, -⟩ := g.kept n _ hget
    rw [hr] at hn
    cases hn
    exact ⟨_, List.getElem_mem _, rfl, rfl, isOpen⟩

/-- What the first table has not done yet is not in the second, unless it was there before that
grew. -/
theorem Table.Spares.absent_of_open (h : Table.Spares guest s s') (g : t'.Grows s')
    (absent : t'.find? name c = none) {r : Bool} (hn : s[n]? = some ⟨name, c, none, r, []⟩)
    (hfound : s.find? name c = some n) : s'.find? name c = none := by
  rw [← Table.lookup?_eq_none]
  refine Option.eq_none_iff_forall_ne_some.mpr fun e' he' => ?_
  obtain ⟨e, he, hkeeps⟩ := h.found _ e' he'
  rw [Table.lookup?_eq, hfound, Option.bind_some, hn] at he
  cases he
  obtain ⟨hmem, hkey⟩ := Table.mem_of_lookup? he'
  obtain ⟨d, hd, hname, hc, -⟩ := g.of_open hmem hkeeps.1
  obtain ⟨hname', hc'⟩ := Prod.mk.inj hkey
  exact Table.ne_of_find?_eq_none absent d hd (hc.trans hc') (hname.trans hname')

end

/-! ## Inlining -/

/-- One template embeds another, or one that leads to it. -/
def Above (templates : List (String × Template)) (upper name : String) : Prop :=
  ∃ x other data here, Record.get? templates upper = some x ∧
    .embed other data here ∈ Tree.leavesOf x.body ∧ Leads templates other name

/-- The second templates are the first but for a host, in which an embedded guest is replaced by the
trees of the guest; the guest does not lead to itself. -/
structure Inlines (templates templates' : List (String × Template)) (host guest : String)
    (data : Option Pipeline) (here : Location) (new : List (Tree Piece)) : Prop where
  embedded : ∃ x, Record.get? templates guest = some x ∧ x.body = new
  once : EmbedsIn (fun other => ¬ Leads templates other guest) new
  replaced : ∃ x x', Record.get? templates host = some x ∧ Record.get? templates' host = some x' ∧
    Tree.Replaced (.embed guest data here) new x.body x'.body
  others : ∀ name, name ≠ host → Record.get? templates' name = Record.get? templates name

section

variable {templates templates' : List (String × Template)} {host guest name other upper : String}
  {data : Option Pipeline} {here : Location} {new : List (Tree Piece)}

theorem Leads.trans {first second third : String} (h : Leads templates first second)
    (g : Leads templates second third) : Leads templates first third := by
  induction g with
  | entry => exact h
  | embed _ hget embedded ih => exact .embed ih hget embedded

theorem Above.leads (h : Above templates upper name) : Leads templates upper name := by
  obtain ⟨x, other, data, here, hget, embedded, led⟩ := h
  exact (Leads.embed .entry hget embedded).trans led

/-- What leads to a template is above all that it embeds. -/
theorem Leads.above_embed (h : Leads templates upper name) {x : Template}
    (hget : Record.get? templates name = some x)
    (embedded : .embed other data here ∈ Tree.leavesOf x.body) : Above templates upper other := by
  induction h generalizing x other data here with
  | entry => exact ⟨x, other, data, here, hget, embedded, .entry⟩
  | embed _ hget' embedded' ih =>
    obtain ⟨y, next, _, _, hy, hnext, led⟩ := ih hget' embedded'
    exact ⟨y, next, _, _, hy, hnext, led.embed hget embedded⟩

namespace Inlines

variable (h : Inlines templates templates' host guest data here new)
include h

theorem not_above : ¬ Above templates guest guest := by
  rintro ⟨x, other, data, here, hget, embedded, led⟩
  obtain ⟨y, hy, rfl⟩ := h.embedded
  obtain rfl := Option.some.inj (hy.symm.trans hget)
  exact h.once other data here embedded led

theorem host_ne_guest : host ≠ guest := by
  rintro rfl
  obtain ⟨x, x', hx, -, replaced⟩ := h.replaced
  exact h.not_above (Leads.entry.above_embed hx replaced.mem_leavesOf)

theorem get?_guest : ∃ x, Record.get? templates' guest = some x ∧ x.body = new := by
  obtain ⟨x, hx, rfl⟩ := h.embedded
  exact ⟨x, (h.others guest h.host_ne_guest.symm).trans hx, rfl⟩

/-- Every template is the same on both sides, or the host. -/
theorem get?_cases {x : Template} (hget : Record.get? templates name = some x) :
    ∃ x', Record.get? templates' name = some x' ∧
      (x'.body = x.body ∨ Tree.Replaced (.embed guest data here) new x.body x'.body) := by
  by_cases same : name = host
  · obtain ⟨y, y', hy, hy', replaced⟩ := h.replaced
    rw [same] at hget ⊢
    obtain rfl := Option.some.inj (hy.symm.trans hget)
    exact ⟨y', hy', .inr replaced⟩
  · exact ⟨x, (h.others name same).trans hget, .inl rfl⟩

end Inlines

end

section

variable (policy : Policy) (templates templates' : List (String × Template)) (guest : String)

/-- The tables of two analyses, the second of which spares the guest. Templates that are not done
yet have a property, such as to lead to the one that is being compiled. -/
structure Paired (B : String → Prop) (t t' : Table) : Prop where
  spares : t.Spares guest t'
  sound : t.Sound policy templates fun _ => True
  sound' : t'.Sound policy templates' fun _ => True
  budgeted : t.Budgeted templates fun _ => True
  budgeted' : t'.Budgeted templates' fun _ => True
  isOpen : ∀ e ∈ t, e.after = none → B e.name

/-- Embeddings by any larger number of entries retrace those by one, from wherever all that is not
done is above the template. -/
def Retraced (room : Nat) : Prop :=
  ∀ room' > room, ∀ (B : String → Prop) name c here, (∀ o, B o → Above templates o name) →
    Step.Carries (Paired policy templates templates' guest B) Ends
      (enter policy templates room name c here) (enter policy templates' room' name c here)

end

section

variable {policy : Policy} {templates templates' : List (String × Template)} {host guest : String}
  {data : Option Pipeline} {spot : Location} {new : List (Tree Piece)} {B : String → Prop}
  {room room' : Nat} {name : String} {c next : Context} {here : Location}
  {t t' t₁ t₁' : Table} {n : Nat}

theorem Policy.preserves_true (policy : Policy) : policy.Preserves fun _ => True :=
  ⟨fun _ _ _ _ => trivial, fun _ _ _ _ => trivial, fun _ _ _ _ _ _ => trivial⟩

theorem Paired.step (paired : Paired policy templates templates' guest B t t')
    (run : (enter policy templates room name c here).run t = .ok ((n, next), t₁))
    (sound' : t₁'.Sound policy templates' fun _ => True) (spares : t₁.Spares guest t₁')
    (budgeted : t₁.Budgeted templates fun _ => True)
    (budgeted' : t₁'.Budgeted templates' fun _ => True) :
    Paired policy templates templates' guest B t₁ t₁' := by
  obtain ⟨grows, sound, -⟩ :=
    enter_sound (Policy.preserves_true policy) room name c here t t₁ n next run trivial paired.sound
  refine ⟨spares, sound, sound', budgeted, budgeted', fun e he isOpen => ?_⟩
  obtain ⟨d, hd, hname, -, hopen⟩ := grows.of_open he isOpen
  exact hname ▸ paired.isOpen d hd hopen

theorem sound_of_run (run : (enter policy templates room name c here).run t = .ok ((n, next), t₁))
    (sound : t.Sound policy templates fun _ => True) : t₁.Sound policy templates fun _ => True :=
  (enter_sound (Policy.preserves_true policy) room name c here t t₁ n next run trivial sound).2.1

theorem Paired.few (paired : Paired policy templates templates' guest B t t')
    (few : t.count name < contextLimit) : t'.count name < contextLimit :=
  have distinct := paired.budgeted'.distinct
  (Table.count_le_of_subset distinct (paired.spares.keys_subset distinct) name).trans_lt few

/-- Where an entry is started on both sides, all that is not done leads to its template. -/
theorem Paired.start (paired : Paired policy templates templates' guest B t t')
    (above : ∀ o, B o → Above templates o name) (fresh : t.find? name c = none)
    (few : t.count name < contextLimit) {x x' : Template}
    (hx : Record.get? templates name = some x) (hx' : Record.get? templates' name = some x') :
    Paired policy templates templates' guest (Leads templates · name)
      (t ++ [⟨name, c, none, false, []⟩]) (t' ++ [⟨name, c, none, false, []⟩]) where
  spares := paired.spares.start fresh
  sound := paired.sound.start name trivial
  sound' := paired.sound'.start name trivial
  budgeted := paired.budgeted.start fresh few trivial hx
  budgeted' := paired.budgeted'.start (paired.spares.fresh fresh) (paired.few few) trivial hx'
  isOpen := by
    rw [List.forall_mem_append, List.forall_mem_singleton]
    exact ⟨fun e he isOpen => (above _ (paired.isOpen e he isOpen)).leads, fun _ => .entry⟩

/-- A template that is not above itself is not being compiled where it is embedded. -/
theorem Paired.done (paired : Paired policy templates templates' guest B t t')
    (above : ∀ o, B o → Above templates o guest) {e : Entry} (he : e ∈ t)
    (low : ¬ Above templates e.name guest) : ∃ next, e.after = some next :=
  Option.ne_none_iff_exists'.mp fun isOpen => low (above _ (paired.isOpen e he isOpen))

/-- Where the guest is embedded, all that its trees have been linked to is there on the second
side. -/
theorem Paired.answers (paired : Paired policy templates templates' guest B t t')
    (above : ∀ o, B o → Above templates o guest) {s : Table} (same : t'.SameBut (guest, c) s) :
    (enter policy templates' (room + 1)).Answers t.Promises
      (fun other => ¬ Leads templates other guest) s := by
  rintro other d n next here low ⟨e, hn, rfl, rfl, hafter⟩
  have other_ne : e.name ≠ guest := by
    rintro heq
    exact low (heq ▸ .entry)
  have mem : e ∈ t := List.mem_of_getElem? hn
  obtain ⟨stop, hstop⟩ := paired.done above mem fun h => low h.leads
  have hnext : e.after = some next := hafter.resolve_right fun h => by
    rw [hstop] at h
    cases h.1
  obtain ⟨e', he', hkeeps⟩ := paired.spares.kept (e.name, e.context) e other_ne
    (Table.lookup?_of_getElem? paired.budgeted.distinct hn)
  have hne : (e.name, e.context) ≠ (guest, c) := fun h => other_ne (Prod.mk.inj h).1
  rw [← same _ hne] at he'
  obtain ⟨m, hfind, hm⟩ := Table.find?_of_lookup? he'
  refine ⟨m, ?_⟩
  rw [run_enter_of_found hfind]
  exact run_revisit_of_done hm (hkeeps.1.trans hnext) _

/-- Where the guest is embedded, an entry of it is done, and the second side can analyse its trees
to the same end from what is there. -/
theorem Paired.reruns_guest (paired : Paired policy templates templates' guest B t t')
    (h : Inlines templates templates' host guest data spot new)
    (above : ∀ o, B o → Above templates o guest) {e : Entry} (hn : t[n]? = some e)
    (hname : e.name = guest) {s : Table} (same : t'.SameBut (guest, e.context) s) :
    ∃ stop, e.after = some stop ∧
      Reruns s (trees policy (enter policy templates' (room + 1)) e.context new) stop := by
  have low : ¬ Above templates e.name guest := hname ▸ h.not_above
  obtain ⟨stop, hstop⟩ := paired.done above (List.mem_of_getElem? hn) low
  obtain ⟨-, x, hx, derived⟩ := (paired.sound n e hn).2 stop hstop
  obtain ⟨y, hy, rfl⟩ := h.embedded
  rw [hname] at hx
  obtain rfl := Option.some.inj (hx.symm.trans hy)
  exact ⟨stop, hstop, derived.reruns (paired.answers above same) h.once⟩

theorem Retraced.embeds (ih : Retraced policy templates templates' guest room)
    (hlt : room < room') {x : Template} (hget : Record.get? templates name = some x) :
    Enter.Carries (Paired policy templates templates' guest (Leads templates · name))
      (fun other => ∃ data here, .embed other data here ∈ Tree.leavesOf x.body)
      (enter policy templates room) (enter policy templates' room') :=
  fun other c here ⟨_, _, embedded⟩ =>
    ih room' hlt _ other c here fun _ led => led.above_embed hget embedded

/-- The analysis of the guest's trees in place retraces the embedding of the guest. -/
theorem inline_carries (h : Inlines templates templates' host guest data spot new)
    (ih : ∀ r < room, Retraced policy templates templates' guest r) (hle : room ≤ room')
    (above : ∀ o, B o → Above templates o guest) (c : Context) (here : Location) :
    Step.Carries (Paired policy templates templates' guest B) Ends
      (enter policy templates room guest c here)
      (trees policy (enter policy templates' room') c new) := by
  rintro t t' ⟨n, next⟩ t₁ paired run
  cases room with
  | zero =>
    rw [enter] at run
    cases run
  | succ room =>
    obtain ⟨room', rfl⟩ := Nat.exists_eq_succ_of_ne_zero (Nat.ne_zero_of_lt hle)
    cases hfind : t.find? guest c with
    | some k =>
      -- the guest is done: what its trees are linked to is there, and nothing is added
      obtain ⟨e, hk, -, hname, rfl⟩ := Table.lookup?_of_find? hfind
      obtain ⟨stop, hstop, us, rerun⟩ := paired.reruns_guest h above hk hname (.refl _ t')
      rw [run_enter_of_found hfind, run_revisit_of_done hk hstop] at run
      cases run
      exact ⟨_, t', rerun, rfl, paired⟩
    | none =>
      obtain ⟨x, hx, rfl⟩ := h.embedded
      obtain ⟨rfl, few, y, compiled, t₂, hy, hbody, hcheck, rfl⟩ :=
        (run_enter_of_fresh hfind).mp run
      obtain rfl := Option.some.inj (hx.symm.trans hy)
      obtain ⟨x', hx', -⟩ := h.get?_guest
      have absent := paired.spares.fresh hfind
      have started : Paired policy templates templates' guest (Leads templates · guest)
          (t ++ [⟨guest, c, none, false, []⟩]) t' :=
        { paired.start above hfind few hx hx' with
          spares := paired.spares.left (Table.sameBut_start hfind) absent
          sound' := paired.sound'
          budgeted' := paired.budgeted' }
      have hlt : room < room' + 1 := hle
      have embeds := (ih room (Nat.lt_succ_self room)).embeds hlt hx
      obtain ⟨r', t₂', hrun', heq, paired₂⟩ :=
        trees_carries embeds x.body (fun _ _ _ h => ⟨_, _, h⟩) c started hbody
      have kept := Policy.preserves_true policy
      obtain ⟨grows, -, -⟩ :=
        trees_compiled kept (enter_sound kept room) hbody trivial started.sound
      obtain ⟨grows', sound', -⟩ :=
        trees_compiled kept (enter_sound kept (room' + 1)) hrun' trivial paired.sound'
      obtain ⟨r, hr, hfound⟩ := grows.started paired₂.budgeted.distinct
      -- the entry of the guest is not done on the first side, so the second has none
      have absent₂ : t₂'.find? guest c = none :=
        paired₂.spares.absent_of_open grows' absent hr hfound
      refine ⟨r', t₂', hrun', heq, paired.step run sound' ?_ ?_ paired₂.budgeted'⟩
      · exact paired₂.spares.left (Table.sameBut_modify hfound fun _ => ⟨rfl, rfl⟩) absent₂
      · exact paired₂.budgeted.of_keys (Table.keys_finish ..)

/-- Where the second side has spared an entry of the guest, an embedding makes up for it: it
compiles the guest to the same end, with what is there, and adds this entry alone. -/
theorem spared_carries (h : Inlines templates templates' host guest data spot new)
    (above : ∀ o, B o → Above templates o guest)
    (paired : Paired policy templates templates' guest B t t') {e : Entry} (hn : t[n]? = some e)
    (hname : e.name = guest) (absent : t'.find? guest e.context = none) :
    ∃ stop r t₁', e.after = some stop ∧
      (enter policy templates' (room + 2) guest e.context here).run t' = .ok (r, t₁') ∧
      stop = r.2 ∧ Paired policy templates templates' guest B t t₁' := by
  let s : Table := t' ++ [⟨guest, e.context, none, false, []⟩]
  have begun : t'.SameBut (guest, e.context) s := Table.sameBut_start absent
  have reruns : ∃ stop, e.after = some stop ∧
      Reruns s (trees policy (enter policy templates' (room + 1)) e.context new) stop :=
    paired.reruns_guest h above hn hname begun
  obtain ⟨stop, hstop, us, rerun⟩ := reruns
  obtain ⟨x', hx', hbody⟩ := h.get?_guest
  rw [← hbody] at rerun
  have few : t'.count guest < contextLimit := by
    have present : (guest, e.context) ∈ t.keys :=
      List.mem_map.mpr ⟨e, List.mem_of_getElem? hn, Prod.ext hname rfl⟩
    have distinct := paired.budgeted'.distinct
    exact (Table.count_lt_of_subset distinct (paired.spares.keys_subset distinct) absent
      present).trans_le (paired.budgeted.limited guest)
  have last : s[t'.length]? = some ⟨guest, e.context, none, false, []⟩ := by simp [s]
  have started := paired.budgeted'.start absent few trivial hx'
  have hfound : s.find? guest e.context = some t'.length :=
    Table.find?_of_getElem? started.distinct last
  have run' : (enter policy templates' (room + 2) guest e.context here).run t' =
      .ok ((t'.length, stop), s.finish t'.length stop us) := by
    refine (run_enter_of_fresh absent).mpr ⟨rfl, few, x', us, _, hx', rerun, ?_, rfl⟩
    rw [last]
    simp
  have found : t.lookup? (guest, e.context) = some e :=
    hname ▸ Table.lookup?_of_getElem? paired.budgeted.distinct hn
  have found' : (s.finish t'.length stop us).lookup? (guest, e.context) =
      some ⟨guest, e.context, some stop, false, us⟩ := by
    rw [Table.lookup?_eq, Table.find?_congr (Table.keys_finish ..), hfound]
    exact Table.finish_self last stop us
  have same : t'.SameBut (guest, e.context) (s.finish t'.length stop us) :=
    begun.trans (Table.sameBut_modify hfound fun _ => ⟨rfl, rfl⟩)
  have paired' : Paired policy templates templates' guest B t (s.finish t'.length stop us) :=
    { paired with
      spares := paired.spares.right same found found' ⟨hstop.symm, nofun⟩
      sound' := sound_of_run run' paired.sound'
      budgeted' := started.of_keys (Table.keys_finish ..) }
  exact ⟨stop, _, _, hstop, run', rfl, paired'⟩

/-- An embedding that finds its entry is retraced: by one that finds it too, or, where the second
table has spared the guest, by one that compiles the guest to what is there. -/
theorem found_carries (h : Inlines templates templates' host guest data spot new)
    (above : ∀ o, B o → Above templates o name)
    (paired : Paired policy templates templates' guest B t t') {k : Nat}
    (hfind : t.find? name c = some k)
    (run : (enter policy templates (room + 1) name c here).run t = .ok ((n, next), t₁)) :
    ∃ r t₁', (enter policy templates' (room' + 2) name c here).run t' = .ok (r, t₁') ∧
      next = r.2 ∧ Paired policy templates templates' guest B t₁ t₁' := by
  have answer := run
  obtain ⟨e, hk, he, hname, hc⟩ := Table.lookup?_of_find? hfind
  rw [run_enter_of_found hfind] at answer
  cases hfind' : t'.find? name c with
  | some k' =>
    obtain ⟨e', hk', he', -⟩ := Table.lookup?_of_find? hfind'
    obtain ⟨d, hd, hkeeps⟩ := paired.spares.found _ e' he'
    obtain rfl : e = d := Option.some.inj (he.symm.trans hd)
    cases hafter : e.after with
    | some stop =>
      rw [run_revisit_of_done hk hafter] at answer
      cases answer
      refine ⟨(k', next), t', ?_, rfl, paired⟩
      rw [run_enter_of_found hfind', run_revisit_of_done hk' (hkeeps.1.trans hafter)]
    | none =>
      have run' : (enter policy templates' (room' + 2) name c here).run t' =
          .ok ((k', c), t'.modify k' fun e => { e with recursive := true }) := by
        rw [run_enter_of_found hfind', run_revisit_of_open hk' (hkeeps.1.trans hafter)]
      rw [run_revisit_of_open hk hafter] at answer
      cases answer
      have same (e : Entry) : ({ e with recursive := true } : Entry).name = e.name ∧
        ({ e with recursive := true } : Entry).context = e.context := ⟨rfl, rfl⟩
      exact ⟨_, _, run', rfl, paired.step run (sound_of_run run' paired.sound')
        (paired.spares.modify hfind hfind' same same fun _ _ hkeeps => ⟨hkeeps.1, fun _ => rfl⟩)
        (paired.budgeted.of_keys (Table.keys_modify _ _ _ same))
        (paired.budgeted'.of_keys (Table.keys_modify _ _ _ same))⟩
  | none =>
    obtain rfl : name = guest := by
      refine Decidable.byContradiction fun hne => ?_
      obtain ⟨e', he', -⟩ := paired.spares.kept _ e hne he
      rw [Table.lookup?_eq_none.mpr hfind'] at he'
      cases he'
    subst hc
    obtain ⟨stop, r, t₁', hstop, run', heq, paired'⟩ :=
      spared_carries h above paired hk hname hfind'
    rw [run_revisit_of_done hk hstop] at answer
    cases answer
    exact ⟨r, t₁', run', heq, paired'⟩

/-- The analysis of a body is retraced by that of the body on the other side, be it the same or one
with the guest inlined. -/
theorem body_carries (h : Inlines templates templates' host guest data spot new)
    (ih : ∀ r < room + 1, Retraced policy templates templates' guest r) (hlt : room < room')
    {x x' : Template} (hx : Record.get? templates name = some x)
    (bodies : x'.body = x.body ∨ Tree.Replaced (.embed guest data spot) new x.body x'.body)
    (c : Context) :
    Step.Carries (Paired policy templates templates' guest (Leads templates · name)) Ends
      (trees policy (enter policy templates room) c x.body)
      (trees policy (enter policy templates' room') c x'.body) := by
  have embeds := (ih room (Nat.lt_succ_self room)).embeds hlt hx
  have embedded : EmbedsIn (fun other => ∃ data here,
      .embed other data here ∈ Tree.leavesOf x.body) x.body := fun _ _ _ h => ⟨_, _, h⟩
  rcases bodies with same | replaced
  · rw [same]
    exact trees_carries embeds x.body embedded c
  · have above (o : String) (led : Leads templates o name) : Above templates o guest :=
      led.above_embed hx replaced.mem_leavesOf
    have inlined (c : Context) := inline_carries h (fun r hr => ih r (Nat.lt_succ_of_lt hr))
      (Nat.le_of_lt hlt) above c spot
    exact replaced_carries embeds replaced inlined embedded c

/-- An embedding that starts an entry is retraced by one that starts it too. -/
theorem start_carries (h : Inlines templates templates' host guest data spot new)
    (ih : ∀ r < room + 1, Retraced policy templates templates' guest r) (hlt : room < room')
    (above : ∀ o, B o → Above templates o name)
    (paired : Paired policy templates templates' guest B t t')
    (fresh : t.find? name c = none)
    (run : (enter policy templates (room + 1) name c here).run t = .ok ((n, next), t₁)) :
    ∃ r t₁', (enter policy templates' (room' + 1) name c here).run t' = .ok (r, t₁') ∧
      next = r.2 ∧ Paired policy templates templates' guest B t₁ t₁' := by
  have fresh' := paired.spares.fresh fresh
  obtain ⟨rfl, few, x, compiled, t₂, hx, hbody, hcheck, rfl⟩ := (run_enter_of_fresh fresh).mp run
  obtain ⟨x', hx', bodies⟩ := h.get?_cases hx
  have started := paired.start above fresh few hx hx'
  obtain ⟨⟨compiled', stop⟩, t₂', hbody', heq, paired₂⟩ :=
    body_carries h ih hlt hx bodies c started hbody
  obtain rfl : next = stop := heq
  have kept := Policy.preserves_true policy
  obtain ⟨grows, -⟩ := trees_compiled kept (enter_sound kept room) hbody trivial started.sound
  obtain ⟨grows', -⟩ := trees_compiled kept (enter_sound kept room') hbody' trivial started.sound'
  obtain ⟨r, hr, hfound⟩ := grows.started paired₂.budgeted.distinct
  obtain ⟨r', hr', hfound'⟩ := grows'.started paired₂.budgeted'.distinct
  have check : ¬ (t₂'[t'.length]?.any Entry.recursive = true ∧ next ≠ c) := by
    rintro ⟨marked, hne⟩
    have he' : t₂'.lookup? (name, c) = some ⟨name, c, none, r', []⟩ := by
      rw [Table.lookup?_eq, hfound', Option.bind_some, hr']
    obtain ⟨e, he, -, hmark⟩ := paired₂.spares.found _ _ he'
    rw [Table.lookup?_eq, hfound, Option.bind_some, hr] at he
    cases he
    rw [hr'] at marked
    exact hcheck ⟨by rw [hr]; exact hmark marked, hne⟩
  have run' : (enter policy templates' (room' + 1) name c here).run t' =
      .ok ((t'.length, next), t₂'.finish t'.length next compiled') :=
    (run_enter_of_fresh fresh').mpr
      ⟨rfl, paired.few few, x', compiled', t₂', hx', hbody', check, rfl⟩
  refine ⟨_, _, run', rfl, paired.step run (sound_of_run run' paired.sound') ?_
    (paired₂.budgeted.of_keys (Table.keys_finish ..))
    (paired₂.budgeted'.of_keys (Table.keys_finish ..))⟩
  exact paired₂.spares.modify hfound hfound' (fun _ => ⟨rfl, rfl⟩) (fun _ => ⟨rfl, rfl⟩)
    fun _ _ hkeeps => ⟨rfl, hkeeps.2⟩

/-- Analyses of the two sets of templates: the second retraces the first. -/
theorem Inlines.retraced (h : Inlines templates templates' host guest data spot new) (room : Nat) :
    Retraced policy templates templates' guest room := by
  induction room using Nat.strong_induction_on with
  | _ room ih =>
    rintro room' hlt B name c here above t t' ⟨n, next⟩ t₁ paired run
    cases room with
    | zero =>
      rw [enter] at run
      cases run
    | succ room =>
      obtain ⟨more, rfl⟩ := Nat.exists_eq_add_of_lt hlt
      have carried : ∃ r t₁',
          (enter policy templates' (room + more + 2) name c here).run t' = .ok (r, t₁') ∧
            next = r.2 ∧ Paired policy templates templates' guest B t₁ t₁' := by
        cases hfind : t.find? name c with
        | some k => exact found_carries h above paired hfind run
        | none => exact start_carries h ih (by omega) above paired hfind run
      have levels : room + 1 + more + 1 = room + more + 2 := by omega
      rw [levels]
      exact carried

theorem Table.sound_nil (policy : Policy) (templates : List (String × Template)) :
    Table.Sound policy templates (fun _ => True) [] := by
  intro n e hn
  rw [List.getElem?_nil] at hn
  cases hn

theorem paired_nil : Paired policy templates templates' guest (fun _ => False) [] [] where
  spares := ⟨fun _ _ h => (Option.some_ne_none _ h.symm).elim,
    fun _ _ _ h => (Option.some_ne_none _ h.symm).elim⟩
  sound := Table.sound_nil policy templates
  sound' := Table.sound_nil policy templates'
  budgeted := Table.budgeted_nil
  budgeted' := Table.budgeted_nil
  isOpen _ h := absurd h List.not_mem_nil

/-- Where the analysis of an entry succeeds, the analysis with the guest inlined does, and ends in
the same context. -/
theorem Inlines.enter (h : Inlines templates templates' host guest data spot new)
    (run : (Analysis.enter policy templates (Analysis.room templates) name c here).run [] =
      .ok ((n, next), t)) :
    ∃ n' t', (Analysis.enter policy templates' (Analysis.room templates') name c here).run [] =
      .ok ((n', next), t') ∧ Paired policy templates templates' guest (fun _ => False) t t' := by
  let levels := max (Analysis.room templates + 1) (Analysis.room templates')
  obtain ⟨⟨n', stop⟩, t', run', heq, paired⟩ :=
    h.retraced (Analysis.room templates) levels (Nat.le_max_left ..) (fun _ => False) name c here
      nofun paired_nil run
  obtain rfl : next = stop := heq
  refine ⟨n', t', ?_, paired⟩
  rw [enter_eq_enterUpTo] at run'
  exact (enterUpTo_same _ (Nat.le_max_right ..) c here).symm.trans run'

/-- What is linked on both sides has the same end. -/
theorem Paired.links (paired : Paired policy templates templates' guest B t t') {next' : Context}
    {n' : Nat} (link : t.Links name c n next) (link' : t'.Links name c n' next') :
    next = next' := by
  obtain ⟨e, hn, rfl, rfl, hafter⟩ := link
  obtain ⟨e', hn', hname, hc, hafter'⟩ := link'
  have found := Table.lookup?_of_getElem? paired.budgeted'.distinct hn'
  rw [hname, hc] at found
  obtain ⟨d, hd, hkeeps, -⟩ := paired.spares.found _ e' found
  rw [Table.lookup?_of_getElem? paired.budgeted.distinct hn] at hd
  cases hd
  rw [hkeeps, hafter] at hafter'
  exact Option.some.inj hafter'

end

end Stencil.Analysis
