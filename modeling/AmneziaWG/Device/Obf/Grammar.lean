import AmneziaWG.Device.Obf.Chain
import AmneziaWG.Lib.Render

/-!
# The Grammar of Specs

What `newObfChain` accepts, said without its loop: text outside of tags, and tags that their
builders accept.  A tag ends at the first `>`, also when a `<` stands before it.

## Main results

- `obfChainFrom_append`: behind a well-formed text the loop goes on as from the start.
- `newObfChain_compositional`: specs can be put one behind the other, and the accepted ones are
  those of the grammar.
-/

namespace AmneziaWG.Device

open AmneziaWG.Lib List Nat

/-! ## §1 The grammar -/

/-- A registered key, then a value that its builder accepts, and fields that nothing reads. -/
def IsTag (tag : Bytes) (o : Obf) : Prop :=
  ∃ key args builder, fields tag = key :: args ∧ obfBuilders key = some builder ∧
    builder (args.head?.getD []) = .ok o

/-- A sequence of characters and tags, with the generators of the tags. -/
inductive IsSpec : Bytes → List Obf → Prop where
  | nil : IsSpec [] []
  | char {b : Byte} {s : Bytes} {obfs : List Obf} (hb : b ≠ asciiByte '<') (h : IsSpec s obfs) :
      IsSpec (b :: s) obfs
  | tag {tag s : Bytes} {o : Obf} {obfs : List Obf} (hend : asciiByte '>' ∉
      tag) (htag : IsTag tag o)
      (h : IsSpec s obfs) : IsSpec (asciiByte '<' :: (tag ++ asciiByte '>' :: s)) (o :: obfs)

variable {s s₁ s₂ tag : Bytes} {o : Obf} {obfs l l₁ : List Obf} {errs : List TagError} {fuel : ℕ}
  {c : ObfChain}

theorem buildTag_eq_ok_iff : buildTag tag = .ok o ↔ IsTag tag o := by
  unfold buildTag IsTag
  cases fields tag with
  | nil => simp
  | cons key args =>
    cases hbuilder : obfBuilders key with
    | none => simp [hbuilder]
    | some builder =>
      cases hbuild : builder (args.head?.getD []) <;> simp [hbuilder, hbuild, Except.mapError]

theorem IsSpec.chars {text : Bytes} (htext : asciiByte '<' ∉ text) (h : IsSpec s obfs) :
    IsSpec (text ++ s) obfs := by
  induction text with
  | nil => exact h
  | cons b text ih =>
    rw [mem_cons, not_or] at htext
    exact .char (Ne.symm htext.1) (ih htext.2)

/-! ## §2 The loop -/

/-- What the loop accepts is in the grammar, and no error was collected before. -/
theorem isSpec_of_obfChainFrom (h : obfChainFrom fuel obfs errs s = .ok l) :
    errs = [] ∧ ∃ l', l = obfs ++ l' ∧ IsSpec s l' := by
  induction fuel generalizing obfs errs s with
  | zero => cases h
  | succ fuel ih =>
    rw [obfChainFrom] at h
    split at h
    · -- no further tag: the rest is text, and the collected errors decide
      next hopen =>
      split_ifs at h with herrs
      cases h
      have hspec := IsSpec.nil.chars (not_mem_of_cutByte hopen)
      rw [append_nil] at hspec
      exact ⟨herrs, [], (append_nil _).symm, hspec⟩
    · next text rest hopen =>
      split at h
      · cases h
      · next tag remaining hclose =>
        obtain ⟨rfl, htext⟩ := eq_of_cutByte hopen
        obtain ⟨rfl, hend⟩ := eq_of_cutByte hclose
        split at h
        · -- a refused tag is collected, and the loop goes on
          exact absurd (ih h).1 (by simp)
        · next o hbuild =>
          obtain ⟨herrs, l', rfl, hspec⟩ := ih h
          refine ⟨herrs, o :: l', by simp, ?_⟩
          exact (IsSpec.tag hend (buildTag_eq_ok_iff.mp hbuild) hspec).chars htext

/-- Behind a well-formed text the loop goes on as from the start. -/
theorem obfChainFrom_append (obfs : List Obf) (errs : List TagError) (s₂ : Bytes) (h : IsSpec s₁ l₁)
    (hfuel : (s₁ ++ s₂).length < fuel) : ∃ fuel', s₂.length < fuel' ∧
      obfChainFrom fuel obfs errs (s₁ ++ s₂) = obfChainFrom fuel' (obfs ++ l₁) errs s₂ := by
  induction h generalizing obfs fuel with
  | nil => exact ⟨fuel, hfuel, by simp⟩
  | @char b s l hb h ih =>
    obtain ⟨fuel', hfuel', heq⟩ := ih obfs (lt_of_succ_lt hfuel)
    refine ⟨fuel', hfuel', Eq.trans ?_ heq⟩
    obtain ⟨k, rfl⟩ := exists_eq_succ_of_ne_zero (ne_zero_of_lt hfuel)
    rw [cons_append, obfChainFrom, obfChainFrom, cutByte, if_neg hb]
    cases cutByte (asciiByte '<') (s ++ s₂) <;> rfl
  | @tag tag s o l hend htag h ih =>
    obtain ⟨k, rfl⟩ := exists_eq_succ_of_ne_zero (ne_zero_of_lt hfuel)
    -- a tag has at least the two brackets, one unit of fuel is used for it
    have hk : (s ++ s₂).length < k := by
      simp only [length_append, length_cons] at hfuel ⊢
      omega
    obtain ⟨fuel', hfuel', heq⟩ := ih (obfs ++ [o]) hk
    refine ⟨fuel', hfuel', ?_⟩
    rw [cons_append, append_assoc, cons_append, obfChainFrom, cutByte, if_pos rfl]
    dsimp only
    rw [cutByte_append _ hend]
    dsimp only
    rw [buildTag_eq_ok_iff.mpr htag]
    simpa using heq

theorem obfChainFrom_of_isSpec (h : IsSpec s l) (hfuel : s.length < fuel) :
    obfChainFrom fuel obfs [] s = .ok (obfs ++ l) := by
  obtain ⟨fuel', hfuel', heq⟩ := obfChainFrom_append obfs [] [] h (by simpa using hfuel)
  obtain ⟨k, rfl⟩ := exists_eq_succ_of_ne_zero (ne_zero_of_lt hfuel')
  rw [append_nil] at heq
  rw [heq]
  rfl

/-! ## §3 Specs -/

theorem newObfChain_eq_ok_iff : newObfChain s = .ok c ↔ c.spec = s ∧ IsSpec s c.obfs := by
  constructor
  · intro h
    unfold newObfChain at h
    cases hloop : obfChainFrom (s.length + 1) [] [] s with
    | error err => rw [hloop] at h; cases h
    | ok l =>
      obtain ⟨-, l', rfl, hspec⟩ := isSpec_of_obfChainFrom hloop
      rw [hloop] at h
      cases h
      exact ⟨rfl, hspec⟩
  · rintro ⟨rfl, h⟩
    rw [newObfChain, obfChainFrom_of_isSpec h (lt_succ_self _)]
    rfl

/-- The generators behind those of an accepted start are those of the rest. -/
theorem isSpec_append_iff (h : IsSpec s₁ l₁) :
    IsSpec (s₁ ++ s₂) l ↔ ∃ l₂, IsSpec s₂ l₂ ∧ l = l₁ ++ l₂ := by
  obtain ⟨fuel, hfuel, heq⟩ := obfChainFrom_append [] [] s₂ h (lt_succ_self _)
  constructor
  · intro hall
    rw [obfChainFrom_of_isSpec hall (lt_succ_self _)] at heq
    obtain ⟨-, l₂, hl, hspec⟩ := isSpec_of_obfChainFrom heq.symm
    exact ⟨l₂, hspec, hl⟩
  · rintro ⟨l₂, hspec, rfl⟩
    rw [obfChainFrom_of_isSpec hspec hfuel] at heq
    obtain ⟨-, l', hl, hall⟩ := isSpec_of_obfChainFrom heq
    exact (show l₁ ++ l₂ = l' from hl) ▸ hall

/-- Behind an accepted spec exactly the accepted specs can stand, and their generators follow; the
accepted specs are those of the grammar. -/
theorem newObfChain_compositional : (∀ s₁ s₂ c₁, newObfChain s₁ = .ok c₁ → ∀ obfs,
      (∃ c, newObfChain (s₁ ++ s₂) = .ok c ∧ c.obfs = obfs) ↔
        ∃ c₂, newObfChain s₂ = .ok c₂ ∧ obfs = c₁.obfs ++ c₂.obfs) ∧
      ∀ s obfs, (∃ c, newObfChain s = .ok c ∧ c.obfs = obfs) ↔ IsSpec s obfs := by
  have hgrammar : ∀ s obfs, (∃ c, newObfChain s = .ok c ∧ c.obfs = obfs) ↔ IsSpec s obfs := by
    intro s obfs
    constructor
    · rintro ⟨c, hc, rfl⟩
      exact (newObfChain_eq_ok_iff.mp hc).2
    · intro h
      exact ⟨⟨s, obfs⟩, newObfChain_eq_ok_iff.mpr ⟨rfl, h⟩, rfl⟩
  refine ⟨fun s₁ s₂ c₁ hc₁ obfs => ?_, hgrammar⟩
  -- both sides are about the grammar now
  rw [hgrammar, isSpec_append_iff (newObfChain_eq_ok_iff.mp hc₁).2]
  constructor
  · rintro ⟨l₂, hspec, rfl⟩
    exact ⟨⟨s₂, l₂⟩, newObfChain_eq_ok_iff.mpr ⟨rfl, hspec⟩, rfl⟩
  · rintro ⟨c₂, hc₂, rfl⟩
    exact ⟨c₂.obfs, (newObfChain_eq_ok_iff.mp hc₂).2, rfl⟩

theorem newObfChain_two_tags :
    ∃ c, newObfChain (ascii "<b 0x00ff>" ++ ascii ".<r 12>") = .ok c ∧
    c.obfs = [.bytes [0x00, 0xff], .rand 12] :=
  (newObfChain_compositional.1 (ascii "<b 0x00ff>") (ascii ".<r 12>") ⟨ascii "<b 0x00ff>",
    [.bytes [0x00, 0xff]]⟩
    (by decide) _).mpr ⟨⟨ascii ".<r 12>", [.rand 12]⟩, by decide, rfl⟩

end AmneziaWG.Device
