import Parlance.Proofs.Engine.Inscribing
import Parlance.Proofs.Host.Minding

/-! What a node bears: its entries, its children and its listeners. A call of a host alters few of these traces, and
what a node bore before is preserved by calls that alter none of it. -/

namespace Parlance

/-- One thing that a node may bear. -/
inductive Trace where
  | entry (place : Place)
  | child (n : NodeId)
  /-- A listener with its event. -/
  | listener (entry : ListenerId × String)

namespace Host

variable (p : NodeId)

def Bears (h : Host) : Trace → Prop
  | .entry π => (h.content p).held π ≠ none
  | .child n => n ∈ h.children p
  | .listener entry => entry ∈ h.bound p

/-- A trace is again what it was at first: an entry is the same, and nothing else has come that was not there. -/
def Resumes (h₀ h : Host) : Trace → Prop
  | .entry π => (h.content p).stored π = (h₀.content p).stored π
  | t => h.Bears p t → h₀.Bears p t

/-- A node has all the children and listeners that it had, in the same order, and its listeners call what they called. -/
structure Preserves (h₀ h : Host) : Prop where
  children : (h.children p).filter (· ∈ h₀.children p) = h₀.children p
  bound : (h.bound p).filter (· ∈ h₀.bound p) = h₀.bound p
  targets : ∀ entry ∈ h₀.bound p, h.listeners[entry.1.number - 1]? = h₀.listeners[entry.1.number - 1]?

/-- Of what a node bears only some traces have been altered, and the first listeners of the host call what they
called. -/
structure Alters (first : Nat) (traces : Trace → Prop) (h h' : Host) : Prop where
  entries : ∀ π, ¬ traces (.entry π) → (h'.content p).stored π = (h.content p).stored π
  children : ∀ keep : List NodeId, (∀ n ∈ keep, ¬ traces (.child n)) →
    (h'.children p).filter (· ∈ keep) = (h.children p).filter (· ∈ keep)
  bound : ∀ keep : List (ListenerId × String), (∀ entry ∈ keep, ¬ traces (.listener entry)) →
    (h'.bound p).filter (· ∈ keep) = (h.bound p).filter (· ∈ keep)
  targets : ∀ i, i < first → h'.listeners[i]? = h.listeners[i]?

variable {p} {first : Nat} {traces : Trace → Prop} {h₀ h h₁ h' : Host} {q n : NodeId} {ns : List NodeId}
variable {anchor : Option NodeId} {id : ListenerId} {event : String} {places : List Place}

namespace Alters

/-- What is borne afterwards was borne before or has been altered. -/
theorem bears (halters : h.Alters p first traces h') {t : Trace} (ht : ¬ traces t) (hbears : h'.Bears p t) :
    h.Bears p t := by
  cases t with
  | entry π =>
      have hstored := halters.entries π ht
      rw [Bears, ne_eq, ← Content.stored_eq_none] at hbears ⊢
      rwa [hstored] at hbears
  | child n =>
      have hmem : n ∈ (h'.children p).filter (· ∈ [n]) := List.mem_filter.mpr ⟨hbears, by simp⟩
      rw [halters.children [n] (by simpa using ht)] at hmem
      exact (List.mem_filter.mp hmem).1
  | listener entry =>
      have hmem : entry ∈ (h'.bound p).filter (· ∈ [entry]) := List.mem_filter.mpr ⟨hbears, by simp⟩
      rw [halters.bound [entry] (by simpa using ht)] at hmem
      exact (List.mem_filter.mp hmem).1

/-- What has not been altered is what it was at first if it was so before. -/
theorem resumes (halters : h.Alters p first traces h') {t : Trace} (ht : ¬ traces t) (hresumes : Resumes p h₀ h t) :
    Resumes p h₀ h' t := by
  cases t with
  | entry π => exact (halters.entries π ht).trans hresumes
  | child | listener => exact fun hbears => hresumes (halters.bears ht hbears)

/-- Of what was borne at first only entries are altered, so the rest is preserved. -/
theorem preserves (halters : h.Alters p first traces h') (hpreserves : h₀.Preserves p h)
    (hnew : ∀ t, traces t → h₀.Bears p t → ∃ π, t = .entry π)
    (hfirst : ∀ entry ∈ h₀.bound p, entry.1.number - 1 < first) : h₀.Preserves p h' where
  children := (halters.children _ fun _ hn ht => by simpa using hnew _ ht hn).trans hpreserves.children
  bound := (halters.bound _ fun _ hentry ht => by simpa using hnew _ ht hentry).trans hpreserves.bound
  targets entry hentry := (halters.targets _ (hfirst entry hentry)).trans (hpreserves.targets entry hentry)

theorem refl (h : Host) : h.Alters p first traces h :=
  ⟨fun _ _ => rfl, fun _ _ => rfl, fun _ _ => rfl, fun _ _ => rfl⟩

/-- Only what a node shows has been written and erased, at some places. -/
theorem strokes (hstrokes : Strokes q places h h') (hplaces : q = p → ∀ π ∈ places, traces (.entry π)) :
    h.Alters p first traces h' where
  entries π hπ := by
    by_cases hq : p = q
    · subst hq
      exact hstrokes.stored fun hmem => hπ (hplaces rfl π hmem)
    · rw [hstrokes.inscribes.others p hq]
  children keep _ := by rw [hstrokes.inscribes.tree.children]
  bound keep _ := by rw [hstrokes.inscribes.links.bound]
  targets i _ := by rw [hstrokes.inscribes.links.targets]

/-- Something that another node shows has changed. -/
theorem elsewhere (hinscribes : Inscribes q h h') (hq : p ≠ q) : h.Alters p first traces h' where
  entries π _ := by rw [hinscribes.others p hq]
  children keep _ := by rw [hinscribes.tree.children]
  bound keep _ := by rw [hinscribes.links.bound]
  targets i _ := by rw [hinscribes.links.targets]

/-- A new node has been put somewhere. -/
theorem adds (hadds : Adds q anchor h h') (hp : p.index < h.count) (hnext : q = p → traces (.child h.next)) :
    h.Alters p first traces h' where
  entries π _ := by
    rw [hadds.content]
    rintro rfl
    exact Nat.lt_irrefl _ hp
  children keep hkeep := by
    rw [hadds.puts.children]
    split
    next heq => exact filter_putBefore fun hmem => hkeep _ hmem (hnext heq.symm)
    next => rfl
  bound keep _ := by rw [hadds.bound]
  targets i _ := by rw [hadds.targets]

/-- Nodes have been taken away from somewhere. -/
theorem drops (hdrops : Drops q ns h h') (hns : q = p → ∀ n ∈ ns, traces (.child n)) : h.Alters p first traces h' where
  entries π _ := by rw [hdrops.content]
  children keep hkeep := by
    rw [hdrops.takes.children]
    split
    next heq =>
      rw [List.filter_filter]
      refine List.filter_congr fun n _ => ?_
      by_cases hn : n ∈ keep
      · have hout : n ∉ ns := fun hmem => hkeep n hn (hns heq.symm n hmem)
        simp [hn, hout]
      · simp [hn]
    next => rfl
  bound keep _ := by rw [hdrops.bound]
  targets i _ := by rw [hdrops.targets]

/-- A listener has been bound somewhere. -/
theorem binds (listener : Listener) (hq : q.index < h.count) (hfirst : first ≤ h.listeners.size)
    (hid : q = p → traces (.listener ((h.addListener q event listener).1, event))) :
    h.Alters p first traces (h.addListener q event listener).2 where
  entries π _ := by
    have hsame : (h.addListener q event listener).2.content p = h.content p := by
      unfold addListener
      rw [content, content, node_record, node_modify]
      split <;> rfl
    rw [hsame]
  children keep _ := by rw [(SameTree.addListener h q event listener).children]
  bound keep hkeep := by
    rw [bound_addListener h event listener p hq]
    split
    next heq =>
      have hout : ((h.addListener q event listener).1, event) ∉ keep := fun hmem => hkeep _ hmem (hid heq.symm)
      simp [hout]
    next => rfl
  targets i hi := by
    have hlt : i < h.listeners.size := Nat.lt_of_lt_of_le hi hfirst
    change (h.listeners.push listener)[i]? = _
    rw [Array.getElem?_push, if_neg (Nat.ne_of_lt hlt)]

/-- A listener has been taken off somewhere. -/
theorem unbinds (h : Host) (hid : q = p → ∀ event, traces (.listener (id, event))) :
    h.Alters p first traces (h.removeListener q event id) where
  entries π _ := by
    have hsame : (h.removeListener q event id).content p = h.content p := by
      rw [removeListener, content, content, node_record, node_modify]
      split <;> rfl
    rw [hsame]
  children keep _ := by rw [(SameTree.removeListener h q event id).children]
  bound keep hkeep := by
    rw [bound_removeListener h event id p]
    split
    next heq =>
      rw [List.filter_filter]
      refine List.filter_congr fun entry _ => ?_
      by_cases hentry : entry ∈ keep
      · have hout : entry.1 ≠ id := by
          rintro rfl
          exact hkeep entry hentry (hid heq.symm entry.2)
        simp [hentry, hout]
      · simp [hentry]
    next => rfl
  targets i _ := rfl

/-- A later listener has been given something else to call. -/
theorem rebinds (h : Host) (listener : Listener) (hid : first ≤ id.number - 1) :
    h.Alters p first traces (h.rebind id listener) where
  entries _ _ := rfl
  children _ _ := rfl
  bound _ _ := rfl
  targets i hi := by
    change (h.listeners.modify (id.number - 1) fun _ => listener)[i]? = _
    rw [Array.getElem?_modify, if_neg (by omega)]

end Alters

/-- A node is as it was: it has the same children and listeners, which call the same, and shows the same. -/
structure Restores (p : NodeId) (h₀ h : Host) : Prop where
  children : h.children p = h₀.children p
  entries : ∀ π, (h.content p).stored π = (h₀.content p).stored π
  bound : h.bound p = h₀.bound p
  targets : ∀ entry ∈ h₀.bound p, h.listeners[entry.1.number - 1]? = h₀.listeners[entry.1.number - 1]?

theorem Resumes.refl (t : Trace) : Resumes p h h t := by
  cases t with
  | entry => rfl
  | child | listener => exact id

/-- A trace that was not there at first and is not there is what it was. -/
theorem Resumes.of_not_bears {t : Trace} (hold : ¬ h₀.Bears p t) (hnow : ¬ h'.Bears p t) : Resumes p h₀ h' t := by
  cases t with
  | entry π =>
      rw [Bears, ne_eq, ← Content.stored_eq_none, not_not] at hold hnow
      exact hnow.trans hold.symm
  | child | listener => exact fun hbears => absurd hbears hnow

theorem Preserves.refl (h : Host) : h.Preserves p h :=
  ⟨List.filter_eq_self.mpr fun _ hn => decide_eq_true hn, List.filter_eq_self.mpr fun _ hentry => decide_eq_true hentry,
    fun _ _ => rfl⟩

/-- What is preserved is all that there is if entries are what they were and nothing else is borne. -/
theorem Preserves.restores (hpreserves : h₀.Preserves p h) (hresumes : ∀ t, Resumes p h₀ h t) : h₀.Restores p h where
  children := by
    have hall : ∀ n ∈ h.children p, n ∈ h₀.children p := fun n => hresumes (.child n)
    rw [← hpreserves.children, List.filter_eq_self.mpr fun n hn => decide_eq_true (hall n hn)]
  entries π := hresumes (.entry π)
  bound := by
    have hall : ∀ entry ∈ h.bound p, entry ∈ h₀.bound p := fun entry => hresumes (.listener entry)
    rw [← hpreserves.bound, List.filter_eq_self.mpr fun entry hentry => decide_eq_true (hall entry hentry)]
  targets := hpreserves.targets

end Host

end Parlance
