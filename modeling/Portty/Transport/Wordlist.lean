import Mathlib.Data.List.Nodup

/-!
# The word tables (`crypto/wordlist.rs`)

* `table_sorted`: each table has 256 words in strict alphabetic order, so that no word stands twice
  in a table.
* `table_plain`: every word consists of small letters.
-/

namespace Portty.Wordlist

/-- A `String`. -/
abbrev Text := List Char

/-- Words of the positions 0, 2, 4. -/
def evenWords : List Text := List.map String.toList
  ["able", "acid", "aged", "also", "area", "army", "away", "baby", "back", "ball", "band", "bank", "base", "bath",
   "bear", "beat", "beer", "bell", "belt", "best", "bill", "bird", "blow", "blue", "boat", "body", "bomb", "bond",
   "bone", "book", "boom", "born", "boss", "both", "bowl", "bulk", "burn", "bush", "busy", "cake", "call", "calm",
   "came", "camp", "card", "care", "case", "cash", "cast", "cell", "chat", "chip", "city", "club", "coal", "coat",
   "code", "cold", "come", "cook", "cool", "cope", "copy", "core", "cost", "crew", "crop", "dark", "data", "date",
   "dawn", "days", "dead", "deal", "dean", "dear", "debt", "deep", "deny", "desk", "dial", "dice", "diet", "dine",
   "dish", "disk", "dock", "does", "done", "door", "dose", "down", "draw", "drew", "drop", "drug", "dual", "duke",
   "dust", "duty", "each", "earn", "ease", "east", "easy", "edge", "else", "even", "ever", "evil", "exit", "face",
   "fact", "fail", "fair", "fall", "farm", "fast", "fate", "fear", "feed", "feel", "feet", "fell", "felt", "file",
   "fill", "film", "find", "fine", "fire", "firm", "fish", "five", "flag", "flat", "flew", "flip", "flow", "flux",
   "folk", "food", "foot", "ford", "form", "fort", "four", "free", "from", "fuel", "full", "fund", "gain", "game",
   "gate", "gave", "gear", "gene", "gift", "girl", "give", "glad", "goal", "goat", "goes", "gold", "golf", "gone",
   "good", "gray", "grew", "grow", "gulf", "gust", "hair", "half", "hall", "hand", "hang", "hard", "harm", "hate",
   "have", "head", "hear", "heat", "held", "hell", "help", "here", "hero", "high", "hill", "hint", "hire", "hold",
   "hole", "holy", "home", "hope", "host", "hour", "huge", "hung", "hunt", "hurt", "iced", "idea", "inch", "into",
   "iron", "item", "jade", "jail", "jazz", "join", "joke", "jump", "june", "jury", "just", "keel", "keen", "keep",
   "kept", "keys", "kick", "kill", "kind", "king", "knee", "knew", "know", "lack", "lady", "laid", "lake", "land",
   "lane", "last", "late", "lava", "lawn", "lazy", "lead", "leaf", "lean", "leap", "left", "lend", "less", "life",
   "lift", "like", "limb", "lime"]

/-- Words of the positions 1, 3, 5. -/
def oddWords : List Text := List.map String.toList
  ["line", "link", "lips", "list", "live", "load", "loaf", "loan", "lock", "logs", "long", "look", "loop", "lord",
   "lose", "loss", "lost", "loud", "love", "luck", "made", "mail", "main", "make", "male", "mall", "many", "mark",
   "mars", "mask", "mass", "mate", "math", "meal", "mean", "meat", "meet", "melt", "menu", "mesh", "mess", "mice",
   "mild", "mile", "milk", "mill", "mind", "mine", "mint", "miss", "mode", "mole", "moon", "more", "moss", "most",
   "move", "much", "musk", "must", "myth", "name", "navy", "near", "neck", "need", "news", "next", "nice", "nick",
   "nine", "node", "none", "noon", "norm", "nose", "note", "oaks", "oath", "odds", "okay", "once", "only", "onto",
   "open", "oral", "oven", "over", "pace", "pack", "page", "paid", "pain", "pair", "pale", "palm", "park", "part",
   "pass", "past", "path", "peak", "pens", "pest", "pick", "pier", "pile", "pine", "pink", "pint", "pipe", "plan",
   "play", "plot", "plug", "plum", "plus", "poem", "poet", "pole", "poll", "pond", "pool", "poor", "port", "post",
   "pour", "pray", "pull", "pulp", "pump", "punk", "pure", "push", "quay", "quit", "race", "rack", "raft", "rage",
   "raid", "rail", "rain", "rake", "rank", "rare", "rate", "read", "real", "rear", "reed", "reef", "rein", "rely",
   "rent", "rest", "rice", "rich", "ride", "ring", "rink", "rise", "risk", "rite", "road", "roam", "roar", "rock",
   "role", "roll", "roof", "room", "root", "rope", "rose", "rosy", "rugs", "rung", "runs", "rush", "rust", "safe",
   "sage", "said", "sail", "salt", "same", "sand", "sane", "save", "scan", "seal", "seat", "seed", "seem", "seen",
   "self", "sell", "send", "sent", "shed", "ship", "shop", "shot", "show", "shun", "side", "sign", "silk", "sing",
   "sink", "site", "size", "skin", "slab", "slap", "sled", "slid", "slim", "slog", "slot", "slow", "snap", "snow",
   "soap", "sock", "soft", "soil", "sold", "sole", "solo", "song", "soon", "sore", "sort", "soul", "soup", "sour",
   "spin", "spot", "stag", "stem", "step", "stir", "stop", "such", "suit", "sung", "swan", "swap", "swim", "tail",
   "take", "tale", "talk", "tame"]

/-- The table of a position. -/
def table (i : Nat) : List Text := if i % 2 = 0 then evenWords else oddWords

theorem table_cases (i : Nat) : table i = evenWords ∨ table i = oddWords := by
  unfold table
  split_ifs
  · exact .inl rfl
  · exact .inr rfl

theorem table_length (i : Nat) : (table i).length = 256 := by
  rcases table_cases i with h | h <;> rw [h] <;> decide +kernel

theorem table_sorted (i : Nat) : (table i).IsChain (· < ·) := by
  rcases table_cases i with h | h <;> rw [h] <;> decide +kernel

/-- A word of small letters. -/
def Plain (word : Text) : Prop := word ≠ [] ∧ ∀ c ∈ word, 'a' ≤ c ∧ c ≤ 'z'

instance (word : Text) : Decidable (Plain word) :=
  decidable_of_iff (word ≠ [] ∧ word.all (fun c => 'a' ≤ c && c ≤ 'z') = true) (by simp [Plain])

theorem table_plain (i : Nat) : ∀ word ∈ table i, Plain word := by
  rcases table_cases i with h | h <;> rw [h] <;> decide +kernel

theorem table_nodup (i : Nat) : (table i).Nodup := by
  have hsorted := List.isChain_iff_pairwise.mp (table_sorted i)
  refine hsorted.imp fun {word word'} hlt he => ?_
  subst he
  exact List.lt_irrefl word hlt

end Portty.Wordlist
