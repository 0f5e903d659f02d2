/-!
# The Namespace Annex

The ratified top-level domains (`registry/src/namespace.generated.ts` and
`client/src/namespace_generated.rs`, one list in both).
-/

namespace VayuWeb

/-- Every ratified extension, sorted. -/
def namespaceAnnex : List String :=
  ["abacus", "abjad", "abode", "abolition", "accent", "acre", "actuary", "ad", "advocacy", "agora",
  "ahimsa", "ai", "airlock", "airship", "airwave", "akhara", "alias", "allele", "allodial",
  "allotment", "alloy", "almanac", "alpine", "amphora", "an", "ancestry", "anchor", "anglers",
  "anime", "annals", "annuity", "anthem", "anthology", "antibody", "antiquary", "antiquity",
  "antler", "anvil", "aperture", "aphelion", "apiary", "apogee", "aporia", "apothecary",
  "apprentice", "aquaria", "aquifer", "ar", "arbor", "arborist", "arcade", "architect", "archive",
  "artisan", "as", "ascent", "ashram", "assembly", "asteroid", "astrolabe", "asylum", "at",
  "atelier", "atomic", "audition", "auditor", "aurora", "autarky", "autonomy", "avatar", "avian",
  "aviary", "aviator", "ax", "axiology", "axle", "ayurveda", "azimuth", "bachat", "backlot",
  "backstage", "bakehouse", "baker", "ballad", "ballot", "bangla", "bangle", "bansuri", "barber",
  "bard", "barista", "barn", "barnraise", "barrow", "barter", "basket", "bassline", "bastion",
  "batik", "bayes", "bazaar", "be", "bebop", "bedrock", "bedside", "belay", "bellows", "berth",
  "bespoke", "bestiary", "bhajan", "bhangra", "bibliophile", "bigtop", "binary", "bio", "biome",
  "birding", "birdsong", "birthright", "biryani", "bivouac", "blacksmith", "blog", "blues",
  "blurb", "bobbin", "bodega", "boiler", "bokeh", "bookkeeper", "bookmark", "bookme", "bookshop",
  "botany", "boycott", "braille", "brass", "breathe", "breeder", "brew", "brewer", "brine",
  "brisket", "broadsheet", "brocade", "brook", "broth", "brunch", "budget", "bulletin", "burrow",
  "bursary", "busker", "butcher", "by", "byline", "byre", "bytes", "cabaret", "cache", "cadence",
  "cairn", "callsheet", "campfire", "campus", "canine", "canopy", "canto", "canvas", "canyon",
  "capsule", "card", "cardiology", "caregiver", "cargo", "carpool", "carrom", "cart", "carton",
  "cartridge", "cascade", "caselaw", "cashflow", "catacomb", "catalyst", "cattery", "catwalk",
  "caucus", "cc", "cd", "cellar", "cenotaph", "chai", "chanda", "chapbook", "chapter", "charger",
  "charter", "chassis", "chatroom", "checkout", "chemist", "chess", "chicane", "chisel", "chit",
  "choir", "chords", "choreo", "chromosphere", "chronicle", "chutney", "ci", "cider", "cine",
  "cipher", "circle", "citadel", "citation", "civic", "clan", "classroom", "cleaver", "clemency",
  "clinician", "cloister", "clubhouse", "cluster", "co", "cobbler", "cockpit", "codex", "coffer",
  "cognate", "cohort", "collage", "colophon", "comet", "commons", "commute", "compile", "compost",
  "congress", "consign", "contagion", "contractor", "conveyor", "convoy", "coppice", "coral",
  "corset", "cortex", "cosmicray", "cosmos", "costume", "council", "counsel", "couplet",
  "courier", "courtside", "couture", "cowrie", "cradle", "crag", "crate", "crater", "creamery",
  "crease", "creole", "crew", "crochet", "crossword", "crumb", "crystal", "cultivar", "cuneiform",
  "curator", "curd", "curtain", "cv", "cyrillic", "daemon", "dao", "darkroom", "darksky",
  "darshan", "darzi", "db", "debug", "decent", "deed", "denim", "deploy", "depot", "desk",
  "devanagari", "dhaba", "dharma", "diacritic", "diagnosis", "dialect", "dialectic", "diaspora",
  "dice", "digest", "dignity", "diploma", "disclose", "dispatch", "dispensary", "dissent",
  "distill", "dividend", "diwali", "dj", "do", "docent", "dockyard", "dojo", "domestique",
  "donate", "doodle", "dosa", "dosage", "doula", "dovetail", "dramaturg", "drape", "drayage",
  "dub", "dukan", "dune", "dungeon", "dupatta", "easel", "ecology", "econ", "elegy", "embroider",
  "emporium", "emulator", "encore", "endangered", "endgame", "endowment", "ensemble",
  "entomology", "entropy", "enzyme", "ephemeris", "epic", "epigraph", "epilogue", "epistemic",
  "equality", "equine", "escrow", "espresso", "essay", "estuary", "eternal", "ethics", "ethos",
  "etymon", "eviction", "ex", "exchequer", "exhibit", "exile", "exoplanet", "exploit", "fable",
  "factory", "fairway", "falconry", "fallow", "fandom", "farrier", "fauna", "feast", "feline",
  "fellow", "ferment", "fern", "ferry", "fins", "firmware", "fiscal", "fixture", "fjord",
  "flamenco", "fleet", "flyby", "flyway", "fm", "foley", "folio", "folk", "folklore", "folkname",
  "footnote", "forage", "forebear", "forge", "formulary", "forum", "fossil", "foundry", "fractal",
  "free", "freedom", "freehold", "freight", "fresco", "fretboard", "frontier", "frugal", "fugue",
  "furnace", "furrow", "fx", "gaffer", "gallop", "gambit", "gamejam", "gantry", "gather",
  "gazette", "genealogy", "genome", "geriatric", "gg", "gharana", "ghazal", "ghee", "girder",
  "glacier", "glaze", "glazier", "glider", "glossary", "glyph", "gnosis", "go", "goldsmith",
  "gospel", "gossip", "gothic", "graft", "grammar", "granary", "gravity", "graze", "greenhouse",
  "greenroom", "grid", "griddle", "gridiron", "grimoire", "griot", "groomer", "groove", "grove",
  "guild", "gullak", "gurukul", "habeas", "habitat", "haggle", "haiku", "hall", "handle",
  "handmade", "hangar", "hangul", "harmony", "harvest", "hatchery", "hattrick", "haulage",
  "haveli", "haven", "hawker", "hd", "hearth", "hedgerow", "heirloom", "heliosphere", "hello",
  "helm", "hem", "herald", "herbarium", "herd", "here", "heritage", "hi", "highscore", "hisab",
  "hive", "homestead", "homework", "hoof", "hospice", "hound", "housing", "hr", "huddle", "human",
  "humanist", "humus", "hutch", "hydro", "hymn", "hypothesis", "iam", "id", "ident", "idiom",
  "if", "ikat", "immune", "imprint", "improv", "in", "inclusion", "indie", "indigo", "inflation",
  "ingot", "inkwell", "innings", "interpret", "invoice", "io", "ip", "is", "isotope", "it",
  "jamboree", "jamdani", "jargon", "jazz", "jigsaw", "joiner", "joinery", "journal", "joystick",
  "js", "justice", "kabaddi", "kairos", "kanji", "karigar", "karma", "kata", "kb", "kelp",
  "kennel", "kernel", "keystone", "khadi", "khata", "kibble", "kiln", "kilowatt", "kin", "kino",
  "kinship", "kiosk", "kirtan", "knead", "knit", "koan", "kollektiv", "kurta", "labour", "labs",
  "lactation", "lading", "lagoon", "lander", "landrace", "langar", "lanparty", "larder", "lathe",
  "laureate", "leaderboard", "learn", "leash", "lecture", "ledger", "legacy", "legalaid",
  "legend", "legume", "lemma", "lens", "lesson", "lexeme", "lexicon", "liberty", "library",
  "libre", "libretto", "lichen", "liftoff", "ligature", "limelight", "lineage", "lineup",
  "lingua", "linguist", "literacy", "liturgy", "loam", "loanword", "locksmith", "lode", "lodge",
  "logic", "logline", "logogram", "logos", "longread", "lookbook", "loom", "loot", "lore", "ludo",
  "lullaby", "lunar", "luthier", "machinist", "maestro", "mahjong", "maidan", "main", "maker",
  "mallet", "malt", "mandi", "mandir", "mangrove", "manifest", "mannequin", "mantra",
  "manuscript", "marathi", "marginalia", "marina", "marionette", "marquee", "marrow", "masala",
  "mason", "masonry", "masthead", "matcha", "matinee", "matte", "maxim", "me", "mead", "mechanic",
  "medic", "meeple", "meetup", "megalith", "mehndi", "mela", "melody", "memoir", "mender",
  "mentor", "mesh", "meteor", "metro", "metta", "microcredit", "midden", "midwife", "midwifery",
  "migrant", "mileage", "mill", "millet", "milliner", "mine", "mineral", "mixtape", "ml", "mocap",
  "mods", "moksha", "monastic", "monsoon", "montage", "mortise", "mosaic", "moss", "moto",
  "mridangam", "mulch", "mural", "muse", "muslin", "mutual", "my", "mycology", "myself", "mystic",
  "myth", "namaste", "named", "nastaliq", "navratri", "nebula", "necropolis", "nectar",
  "neighbor", "neonate", "nest", "nestegg", "neural", "neuron", "news", "no", "noir", "nook",
  "nordic", "notary", "notes", "novel", "novelist", "novella", "nurse", "nursery", "oars",
  "oasis", "obelisk", "observatory", "occultation", "octave", "ode", "of", "offgrid", "offside",
  "ok", "ombuds", "omnibus", "on", "oncology", "ontology", "oolong", "op", "open", "opendata",
  "opensource", "opera", "optician", "orbit", "orbiter", "orchard", "orthography", "orthotic",
  "os", "ossuary", "outpost", "oversight", "own", "ozone", "p2p", "packet", "paddle", "paddock",
  "paddy", "painter", "paisa", "palette", "palimpsest", "pallet", "palliative", "panchayat",
  "paneer", "pantry", "papyrus", "parable", "paralegal", "parchment", "pardesi", "parole",
  "parsec", "pashmina", "pasture", "patch", "pathology", "patina", "patois", "paws", "payload",
  "payout", "payroll", "pedal", "pediatrics", "pedigree", "peer", "pehlwan", "pension",
  "percussion", "pergola", "perigee", "permanent", "person", "petition", "petroglyph",
  "philology", "phoneme", "photon", "physics", "physio", "picket", "pickle", "pidgin", "pilgrim",
  "pinball", "pipeline", "pirouette", "piste", "piston", "pitch", "pitlane", "pixel", "plankton",
  "planter", "plasma", "plaster", "playtest", "pleat", "pledge", "plumage", "plumber", "plushie",
  "pm", "podium", "polis", "pollen", "polyglot", "polymer", "pongal", "pony", "poolside",
  "portage", "potager", "potluck", "pr", "praxis", "precept", "preloved", "premiere", "preprint",
  "primer", "prognosis", "prologue", "proscenium", "prose", "prosody", "protein", "protest",
  "proto", "provenance", "proverb", "psalm", "pulsar", "punchline", "punjabi", "punk", "purr",
  "puzzle", "py", "qa", "qawwali", "quantum", "quarry", "quasar", "qubit", "query", "quest",
  "quill", "quorum", "quote", "radiology", "rafter", "raga", "raid", "rails", "railway", "rally",
  "ramble", "rangmanch", "rangoli", "rd", "reagent", "rebar", "receipt", "reef", "reel",
  "reentry", "refinery", "refuge", "refugee", "regatta", "reggae", "regolith", "rehome", "relay",
  "relic", "reliquary", "remix", "render", "renter", "reptile", "resale", "resin", "resist",
  "respite", "restock", "restomod", "resume", "retrofit", "rewild", "rhythm", "riddle", "ridge",
  "riff", "rind", "ringside", "riyaz", "robot", "roguelike", "roof", "roofer", "roost", "root",
  "rootstock", "rosca", "roster", "rotoscope", "router", "runestone", "runtime", "runway",
  "sabbath", "sacco", "saddle", "saffron", "saga", "sakura", "salon", "samadhi", "samosa",
  "samsara", "sanctuary", "sandbox", "sangha", "sanskrit", "sapling", "saree", "satire", "satori",
  "saver", "sawdust", "scalpel", "schema", "scholar", "schwa", "score", "screening", "screenplay",
  "scribe", "scriptorium", "scrum", "scythe", "seam", "secateurs", "secular", "seed", "seedling",
  "seismic", "self", "selfhost", "selfrule", "seller", "selvedge", "seminar", "sequel",
  "serenade", "serif", "servo", "sestina", "setlist", "shard", "shelter", "sherd", "shoal",
  "shodo", "shogi", "shopfloor", "shrine", "shutter", "shuttle", "sidereal", "signet", "signing",
  "silicon", "silo", "simmer", "sitar", "ska", "skein", "sketch", "skillet", "skipper", "slalom",
  "slang", "smelter", "smithy", "smokehouse", "sneaker", "so", "society", "socket", "sojourn",
  "solace", "solder", "solidarity", "soliloquy", "solvency", "sonata", "sonnet", "sophia", "souk",
  "soul", "soundstage", "sourdough", "sov", "sovereign", "spaceport", "sparky", "sparring",
  "spay", "specimen", "spectra", "speedrun", "spice", "spindle", "splint", "spoke", "spokes",
  "sprite", "sprout", "stack", "stacks", "stage", "stagecraft", "stall", "standup", "stanza",
  "starmap", "statute", "stele", "steward", "stills", "stipend", "stitch", "stoic", "storefront",
  "storyboard", "strata", "strays", "streetwear", "strike", "strings", "studbook", "stumps",
  "stylist", "subsidy", "subtitle", "sudoku", "suffrage", "summit", "sunshine", "supernova",
  "supplier", "surgeon", "surplus", "surveyor", "sutra", "suture", "swahili", "swale", "swarm",
  "swing", "switchback", "syllabary", "syllabus", "syllogism", "symphony", "synapse", "syntax",
  "synth", "syringe", "tabla", "tabletop", "tailor", "takaful", "tally", "tamil", "tandoor",
  "tarmac", "tatami", "tavern", "taxonomy", "teach", "teahouse", "techno", "telemetry",
  "teleplay", "telescope", "telos", "tempo", "tenant", "tensor", "terraces", "terracotta",
  "terrier", "textile", "thali", "thaw", "theorem", "thespian", "thimble", "thread", "thresh",
  "thrift", "throttle", "thruster", "tiffin", "tiler", "tiller", "tilth", "tinker", "tipjar",
  "tithe", "to", "tome", "tongue", "toolshed", "toon", "topiary", "topology", "tourniquet",
  "toybox", "trader", "trailhead", "tram", "transit", "translate", "trapeze", "treasury",
  "triage", "tribe", "tribunal", "trope", "troupe", "trowel", "trucker", "truffle", "tuber",
  "tundra", "tuner", "turbine", "tutor", "tv", "typeset", "ui", "umami", "unbound", "uncensored",
  "understudy", "underwrite", "union", "up", "upcycle", "urdu", "us", "ux", "vaccine", "vaisakhi",
  "varnish", "vaudeville", "vault", "vayu", "vector", "vellum", "velo", "velodrome", "vendor",
  "veneer", "verdant", "verite", "vernacular", "verse", "vespers", "vidya", "village",
  "villanelle", "vineyard", "vintner", "vinyl", "vipassana", "virtue", "vitals", "vivarium",
  "voiceover", "volunteer", "vr", "wafer", "wages", "wander", "waqf", "ward", "wardrobe", "wares",
  "watchdog", "watershed", "waveform", "waypoint", "we", "weave", "weaver", "weld", "welder",
  "wellspring", "wetland", "wharf", "whiskers", "whittle", "whois", "wholesale", "wicket",
  "winnow", "wisdom", "woof", "workbench", "workers", "works", "wp", "wrench", "xr", "yarn",
  "yatra", "yeast", "yo", "yorker", "zakat", "zazen", "zine"]

end VayuWeb
