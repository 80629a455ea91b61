import ElfLinker.Interactif
import ElfLinker.Rio
import ElfLinker.References
import ElfLinker.Execution
import ElfLinker.Noms
import ElfLinker.Recepteur
import ElfLinker.Emission
import ElfLinker.Hote
import ElfLinker.Champs
import ElfLinker.Rattachement
import ElfLinker.Debug
import ElfLinker.Affichage
import ElfLinker.Ordre
import ElfLinker.Confluence
import ElfLinker.Listage
