import PredictiveParsing.Proofs.Lookahead

/-!
# Reading a word off the front of a string

`Reads α w β` works a string off from the left, terminal by terminal and production by production,
until the word `w` is read and `β` is left. It is `Spells` stopped on the way, and what a stack goes
through in the middle of a run. A derivation can be put in this order as far as the symbol behind
the word is concerned (`exists_reads_of_derives`): steps behind that symbol are left for later. What
is ahead of the string that is left makes the next symbol ahead of the string at the beginning
(`Reads.exists_ahead`).
-/
namespace PredictiveParsing

namespace Grammar

variable {g : Grammar}

inductive Reads (g : Grammar) : List Symbol → List Symbol → List Symbol → Prop where
  | done {α : List Symbol} : Reads g α [] α
  | terminal {t : Symbol} {α w β : List Symbol} :
      t ∈ g.terminals → Reads g α w β → Reads g (t :: α) (t :: w) β
  | expand {p : Production} {α w β : List Symbol} :
      p ∈ g.productions → Reads g (p.right ++ α) w β → Reads g (p.left :: α) w β

theorem Spells.reads {α w : List Symbol} (h : g.Spells α w) : g.Reads α w [] := by
  induction h with
  | nil => exact .done
  | terminal ht _ ih => exact .terminal ht ih
  | expand hp _ ih => exact .expand hp ih

theorem reads_of_word {w : List Symbol} (hw : g.Word w) (β : List Symbol) :
    g.Reads (w ++ β) w β := by
  induction w with
  | nil => exact .done
  | cons s w ih =>
    obtain ⟨hs, hw⟩ := word_cons.1 hw
    exact .terminal hs (ih hw)

theorem Reads.contract {p : Production} (hp : p ∈ g.productions) {γ w β : List Symbol}
    {x : Symbol} (h : g.Reads γ w (x :: β)) {u v : List Symbol} (hγ : γ = u ++ (p.right ++ v)) :
    ∃ β', g.Reads (u ++ p.left :: v) w (x :: β') ∧ g.Derives β' β := by
  generalize hleft : x :: β = left at h
  induction h generalizing u with
  | done =>
    subst hleft
    cases u with
    | nil => exact ⟨β, .expand hp (hγ ▸ .done), .refl⟩
    | cons s u =>
      -- the place lies behind the symbol in front and takes no part in the reading
      obtain ⟨rfl, rfl⟩ := List.cons.inj hγ
      exact ⟨u ++ p.left :: v, .done, .single (.step u v hp)⟩
  | terminal ht hα ih =>
    cases u with
    | nil => exact ⟨β, .expand hp (hγ ▸ .terminal ht (hleft ▸ hα)), .refl⟩
    | cons s u =>
      obtain ⟨rfl, rfl⟩ := List.cons.inj hγ
      obtain ⟨β', hreads, hder⟩ := ih rfl hleft
      exact ⟨β', .terminal ht hreads, hder⟩
  | expand hq hα ih =>
    cases u with
    | nil => exact ⟨β, .expand hp (hγ ▸ .expand hq (hleft ▸ hα)), .refl⟩
    | cons s u =>
      obtain ⟨rfl, rfl⟩ := List.cons.inj hγ
      obtain ⟨β', hreads, hder⟩ := ih (List.append_assoc _ u _).symm hleft
      rw [List.append_assoc] at hreads
      exact ⟨β', .expand hq hreads, hder⟩

theorem exists_reads_of_derives {α w γ : List Symbol} {x : Symbol} (hw : g.Word w)
    (h : g.Derives α (w ++ x :: γ)) : ∃ β, g.Reads α w (x :: β) ∧ g.Derives β γ := by
  induction h using Relation.ReflTransGen.head_induction_on with
  | refl => exact ⟨γ, reads_of_word hw (x :: γ), .refl⟩
  | head hs _ ih =>
    obtain ⟨u, v, hp⟩ := hs
    obtain ⟨β, hreads, hder⟩ := ih
    obtain ⟨β', hreads', hder'⟩ := hreads.contract hp rfl
    exact ⟨β', hreads', hder'.trans hder⟩

theorem Reads.exists_ahead {α w β : List Symbol} {E : Symbol → Prop} {c : Symbol}
    (h : g.Reads α w β) (hc : g.Ahead β E c) (rest : List Symbol) :
    ∃ d z, w ++ c :: rest = d :: z ∧ g.Ahead α E d := by
  induction h with
  | done => exact ⟨c, rest, rfl, hc⟩
  | @terminal s α w β hs _ _ => exact ⟨s, w ++ c :: rest, rfl, .inl (.terminal hs)⟩
  | @expand p α w β hp _ ih =>
    obtain ⟨d, z, hd, hahead⟩ := ih hc
    exact ⟨d, z, hd, hahead.of_produces (.step [] α hp)⟩

end Grammar

end PredictiveParsing
